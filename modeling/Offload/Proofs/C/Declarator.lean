import Offload.Proofs.C.Declared
import Mathlib.Tactic.IntervalCases

/-!
# Declarations read back

The grammar of declarators is stated on its own: brackets bind before a star, parentheses group, and
the type named first is what remains once the declarator is taken apart. The text of a declaration
is read by it in one way only, which gives the declared name the type that was written.
-/

namespace Offload.C

open Offload.Compiled List

variable {d : Declarator String} {cs : List Char} {text y : String}

/-! ### Tokens -/

inductive DeclToken where
  | word (text : String)
  | number (value : Nat)
  | star
  | openParen
  | closeParen
  | openBracket
  | closeBracket
deriving DecidableEq, Repr

/-- A decimal constant. One that starts with a zero is octal, unless it is the zero alone. -/
def numberToken? (cs : List Char) : Option DeclToken :=
  if cs.all Char.isDigit && (cs.head? != some '0' || cs.length == 1) then
    some (.number (Nat.ofDigitChars 10 cs 0))
  else none

/-- A run of letters, digits and underscores put before other tokens. -/
def putWord (run : List Char) (rest : List DeclToken) : Option (List DeclToken) :=
  match run with
  | [] => some rest
  | c :: cs =>
    if c.isDigit then (numberToken? (c :: cs)).map (· :: rest)
    else some (.word (String.ofList (c :: cs)) :: rest)

def punctuator? : Char → Option DeclToken
  | '*' => some .star
  | '(' => some .openParen
  | ')' => some .closeParen
  | '[' => some .openBracket
  | ']' => some .closeBracket
  | _ => none

/-- The tokens of a text that goes on with a run already begun. -/
def tokensFrom : List Char → List Char → Option (List DeclToken)
  | run, [] => putWord run []
  | run, c :: cs =>
    if isIdentChar c then tokensFrom (run ++ [c]) cs
    else do
      let rest ← tokensFrom [] cs
      if c.isWhitespace then putWord run rest
      else putWord run ((← punctuator? c) :: rest)

def declTokens (text : String) : Option (List DeclToken) := tokensFrom [] text.toList

/-! ### Grammar -/

/-- Words of the language that name nothing. -/
def keywords : List String :=
  ["auto", "break", "case", "char", "const", "continue", "default", "do", "double", "else", "enum",
    "extern", "float", "for", "goto", "if", "inline", "int", "long", "register", "restrict",
    "return", "short", "signed", "sizeof", "static", "struct", "switch", "typedef", "union",
    "unsigned", "void", "volatile", "while", "_Bool", "_Complex", "_Imaginary"]

/-- Letters, digits and underscores, and no digit first. -/
def isWord (text : String) : Bool :=
  text.toList.all isIdentChar && (text.toList.head?.map fun c => !c.isDigit).getD false

def isIdentifier (text : String) : Bool := isWord text && !keywords.contains text

inductive DeclaratorLevel where
  /-- With stars ahead. -/
  | whole
  /-- Without: only this can stand before brackets. -/
  | direct

/-- Tokens that declare a name, starting from a type: the name gets the type that is given last. -/
inductive ReadsDeclarator : DeclaratorLevel → List DeclToken → Ty → String → Ty → Prop
  | name {x : String} {t : Ty} : isIdentifier x = true →
    ReadsDeclarator .direct [.word x] t x t
  | parens {ts : List DeclToken} {x : String} {t u : Ty} : ReadsDeclarator .whole ts t x u →
    ReadsDeclarator .direct (.openParen :: ts ++ [.closeParen]) t x u
  | array {ts : List DeclToken} {n : Nat} {x : String} {t u : Ty} :
    ReadsDeclarator .direct ts (.array n t) x u →
      ReadsDeclarator .direct (ts ++ [.openBracket, .number n, .closeBracket]) t x u
  | direct {ts : List DeclToken} {x : String} {t u : Ty} : ReadsDeclarator .direct ts t x u →
    ReadsDeclarator .whole ts t x u
  | pointer {ts : List DeclToken} {x : String} {t u : Ty} :
    ReadsDeclarator .whole ts (.ptr t) x u → ReadsDeclarator .whole (.star :: ts) t x u

/-- The types that have a name in a dialect. -/
def typeNamed? : Dialect → String → Option Ty
  | _, "void" => some .void
  | _, "bool" => some (.int .w1)
  | _, "float" => some .float
  | _, "double" => some .double
  | .c99, "int8_t" => some (.int .w8)
  | .c99, "int16_t" => some (.int .w16)
  | .c99, "int32_t" => some (.int .w32)
  | .c99, "int64_t" => some (.int .w64)
  | .openCl, "char" => some (.int .w8)
  | .openCl, "short" => some (.int .w16)
  | .openCl, "int" => some (.int .w32)
  | .openCl, "long" => some (.int .w64)
  | _, _ => none

/-- A type and the declarator of a name. -/
inductive ReadsDeclaration (dialect : Dialect) : List DeclToken → String → Ty → Prop
  | named {word : String} {ts : List DeclToken} {x : String} {t u : Ty} :
    typeNamed? dialect word = some t → ReadsDeclarator .whole ts t x u →
      ReadsDeclaration dialect (.word word :: ts) x u
  | struct {tag : String} {ts : List DeclToken} {x : String} {u : Ty} :
    isIdentifier tag = true → ReadsDeclarator .whole ts (.struct tag) x u →
      ReadsDeclaration dialect (.word "struct" :: .word tag :: ts) x u

/-- The text declares a name with a type. -/
def DeclaresAs (dialect : Dialect) (text : String) (x : String) (t : Ty) : Prop :=
  ∃ ts, declTokens text = some ts ∧ ReadsDeclaration dialect ts x t

/-! ### One reading -/

section

variable {ts : List DeclToken} {x y : String} {t u v : Ty} {level level' : DeclaratorLevel}

/-- Without stars ahead a declarator starts with another token. -/
theorem ReadsDeclarator.head?_of_direct (h : ReadsDeclarator .direct ts t x u) :
    ∃ first rest, ts = first :: rest ∧ first ≠ .star := by
  generalize hlevel : DeclaratorLevel.direct = level at h
  induction h with
  | name _ => exact ⟨_, _, rfl, by simp⟩
  | parens _ _ => exact ⟨_, _, rfl, by simp⟩
  | array _ ih =>
    obtain ⟨first, rest, rfl, hne⟩ := ih hlevel
    exact ⟨first, rest ++ _, rfl, hne⟩
  | direct _ _ => cases hlevel
  | pointer _ _ => cases hlevel

/-- The last rule of a reading, apart from the one that leaves out the stars. -/
theorem ReadsDeclarator.last_rule (h : ReadsDeclarator level ts t x u) :
    (ts = [.word x] ∧ u = t) ∨
      (∃ inner, ts = .openParen :: inner ++ [.closeParen] ∧ ReadsDeclarator .whole inner t x u) ∨
      (∃ inner n, ts = inner ++ [.openBracket, .number n, .closeBracket] ∧
        ReadsDeclarator .direct inner (.array n t) x u) ∨
      ∃ inner, ts = .star :: inner ∧ ReadsDeclarator .whole inner (.ptr t) x u := by
  induction h with
  | name _ => exact .inl ⟨rfl, rfl⟩
  | parens h _ => exact .inr (.inl ⟨_, rfl, h⟩)
  | array h _ => exact .inr (.inr (.inl ⟨_, _, rfl, h⟩))
  | direct _ ih => exact ih
  | pointer h _ => exact .inr (.inr (.inr ⟨_, rfl, h⟩))

theorem parens_ne_brackets (ts inner : List DeclToken) (n : Nat) :
    .openParen :: ts ++ [.closeParen] ≠ inner ++ [.openBracket, .number n, .closeBracket] := by
  intro h
  have hlast := congrArg List.getLast? h
  rw [getLast?_append, getLast?_append] at hlast
  simp at hlast

/-- What the first and the last token are settles the rule, so there is one reading. -/
theorem ReadsDeclarator.unique (h : ReadsDeclarator level ts t x u)
    (h' : ReadsDeclarator level' ts t y v) : y = x ∧ v = u := by
  induction h generalizing level' y v with
  | name _ =>
    rcases h'.last_rule with ⟨heq, rfl⟩ | ⟨inner, heq, -⟩ | ⟨inner, n, heq, -⟩ | ⟨inner, heq, -⟩
    · simp only [List.cons.injEq, DeclToken.word.injEq, and_true] at heq
      exact ⟨heq.symm, rfl⟩
    · simp at heq
    · have hlength := congrArg List.length heq
      simp at hlength
    · simp at heq
  | @parens ts _ _ _ _ ih =>
    rcases h'.last_rule with ⟨heq, -⟩ | ⟨inner, heq, hinner⟩ | ⟨inner, n, heq, -⟩ | ⟨inner, heq, -⟩
    · simp at heq
    · simp only [cons_append, List.cons.injEq, append_cancel_right_eq, true_and] at heq
      rw [← heq] at hinner
      exact ih hinner
    · exact absurd heq (parens_ne_brackets ts inner n)
    · simp at heq
  | @array ts n _ _ _ hts ih =>
    rcases h'.last_rule with ⟨heq, -⟩ | ⟨inner, heq, -⟩ | ⟨inner, k, heq, hinner⟩ | ⟨inner, heq, -⟩
    · have hlength := congrArg List.length heq
      simp at hlength
    · exact absurd heq.symm (parens_ne_brackets inner ts n)
    · obtain ⟨rfl, hbrackets⟩ := append_inj' heq rfl
      simp only [List.cons.injEq, DeclToken.number.injEq, and_true, true_and] at hbrackets
      rw [← hbrackets] at hinner
      exact ih hinner
    · obtain ⟨first, rest, rfl, hne⟩ := hts.head?_of_direct
      exact absurd (List.cons.inj heq).1 hne
  | direct _ ih => exact ih h'
  | pointer _ ih =>
    rcases h'.last_rule with ⟨heq, -⟩ | ⟨inner, heq, -⟩ | ⟨inner, n, heq, hinner⟩ |
      ⟨inner, heq, hinner⟩
    · simp at heq
    · simp at heq
    · obtain ⟨first, rest, rfl, hne⟩ := hinner.head?_of_direct
      exact absurd (List.cons.inj heq).1.symm hne
    · obtain rfl := (List.cons.inj heq).2
      exact ih hinner

theorem typeNamed?_struct (dialect : Dialect) : typeNamed? dialect "struct" = none := by
  cases dialect <;> rfl

theorem ReadsDeclaration.unique {dialect : Dialect} (h : ReadsDeclaration dialect ts x u)
    (h' : ReadsDeclaration dialect ts y v) : y = x ∧ v = u := by
  cases h with
  | named hname h =>
    cases h' with
    | named hname' h' =>
      rw [hname] at hname'
      cases hname'
      exact h.unique h'
    | struct _ _ =>
      rw [typeNamed?_struct] at hname
      cases hname
  | struct _ h =>
    cases h' with
    | named hname' _ =>
      rw [typeNamed?_struct] at hname'
      cases hname'
    | struct _ h' => exact h.unique h'

end

/-! ### Declarators as they are built -/

namespace Declarator

/-- The tokens of a declarator. -/
def tokens : Declarator String → List DeclToken
  | .entity x => [.word x]
  | .pointer d => .star :: d.tokens
  | .array d n => d.tokens ++ [.openBracket, .number n, .closeBracket]
  | .paren d => .openParen :: d.tokens ++ [.closeParen]

/-- No star ahead. -/
def isDirect : Declarator String → Bool
  | .pointer _ => false
  | _ => true

/-- No brackets follow a star, except behind parentheses. -/
def WellGrouped : Declarator String → Prop
  | .entity _ => True
  | .pointer d | .paren d => d.WellGrouped
  | .array d _ => d.isDirect = true ∧ d.WellGrouped

/-- The type of the declared entity if what is left is of a given type. -/
def typeOver {α : Type} : Declarator α → Ty → Ty
  | .entity _, t => t
  | .pointer d, t => d.typeOver (.ptr t)
  | .array d n, t => d.typeOver (.array n t)
  | .paren d, t => d.typeOver t

theorem readsDeclarator_tokens (hd : d.WellGrouped) (hx : isIdentifier d.declared = true) (t : Ty) :
    (d.isDirect = true → ReadsDeclarator .direct d.tokens t d.declared (d.typeOver t)) ∧
      ReadsDeclarator .whole d.tokens t d.declared (d.typeOver t) := by
  induction d generalizing t with
  | entity x => exact ⟨fun _ => .name hx, .direct (.name hx)⟩
  | pointer d ih => exact ⟨fun h => absurd h (by simp [isDirect]), .pointer (ih hd hx _).2⟩
  | array d n ih =>
    have hread := ReadsDeclarator.array ((ih hd.2 hx (.array n t)).1 hd.1)
    exact ⟨fun _ => hread, .direct hread⟩
  | paren d ih =>
    have hread := ReadsDeclarator.parens (ih hd hx t).2
    exact ⟨fun _ => hread, .direct hread⟩

end Declarator

/-- What is left of a type without pointers and arrays. -/
def baseType : Ty → Ty
  | .ptr t | .array _ t => baseType t
  | t => t

/-- The pointers and arrays of a type around another one. -/
def retype (base : Ty) : Ty → Ty
  | .ptr t => .ptr (retype base t)
  | .array n t => .array n (retype base t)
  | _ => base

theorem retype_baseType (t : Ty) : retype (baseType t) t = t := by
  induction t with
  | ptr t ih => rw [retype, baseType, ih]
  | array n t ih => rw [retype, baseType, ih]
  | _ => rfl

/-- A pointer to an array is the only place for parentheses: there the brackets would bind first. -/
theorem wellGrouped_declaratorOf {t : Ty} (hd : d.WellGrouped)
    (harray : ∀ n element, t = .array n element → d.isDirect = true) :
    (declaratorOf t d).2.WellGrouped := by
  fun_induction declaratorOf t d with
  | case6 n element d ih =>
    refine ih ⟨harray n element rfl, hd⟩ fun _ _ _ => rfl
  | case7 n element d ih => exact ih hd fun _ _ _ => rfl
  | case8 pointee d hne ih => exact ih hd fun n element heq => absurd heq (hne n element)
  | _ => exact hd

theorem typeOver_declaratorOf {α : Type} (base t : Ty) (d : Declarator α) :
    (declaratorOf t d).2.typeOver base = d.typeOver (retype base t) := by
  fun_induction declaratorOf t d with
  | case6 n element d ih => exact ih
  | case7 n element d ih => exact ih
  | case8 pointee d hne ih => exact ih
  | _ => rfl

/-! ### Tokens of the text -/

/-- The text does not go on with a letter, digit or underscore. -/
def EndsWord (cs : List Char) : Prop := ∀ c ∈ cs.head?, isIdentChar c = false

theorem endsWord_nil : EndsWord [] := by simp [EndsWord]

theorem endsWord_cons {c : Char} (h : isIdentChar c = false) (cs : List Char) :
    EndsWord (c :: cs) := by
  simpa [EndsWord] using h

theorem tokensFrom_append {part : List Char} (hpart : ∀ c ∈ part, isIdentChar c = true)
    (run cs : List Char) : tokensFrom run (part ++ cs) = tokensFrom (run ++ part) cs := by
  induction part generalizing run with
  | nil => simp
  | cons c part ih =>
    obtain ⟨hc, hpart⟩ := forall_mem_cons.mp hpart
    rw [cons_append, tokensFrom, if_pos hc, ih hpart, append_assoc, singleton_append]

/-- A run that is at its end is put before the tokens that follow. -/
theorem tokensFrom_of_endsWord (run : List Char) (hcs : EndsWord cs) :
    tokensFrom run cs = (tokensFrom [] cs).bind (putWord run) := by
  cases cs with
  | nil => rfl
  | cons c cs =>
    have hc : isIdentChar c = false := by simpa [EndsWord] using hcs
    simp only [tokensFrom, hc, Bool.false_eq_true, if_false, bind]
    cases tokensFrom [] cs with
    | none => rfl
    | some rest =>
      simp only [Option.bind_some]
      split
      · rfl
      · cases punctuator? c <;> rfl

theorem tokensFrom_word (htext : isWord text = true) (hcs : EndsWord cs) :
    tokensFrom [] (text.toList ++ cs) = (tokensFrom [] cs).map (.word text :: ·) := by
  simp only [isWord, Bool.and_eq_true, all_eq_true] at htext
  rw [tokensFrom_append htext.1, nil_append, tokensFrom_of_endsWord _ hcs]
  cases hlist : text.toList with
  | nil => simp [hlist] at htext
  | cons c rest =>
    have hdigit : c.isDigit = false := by simpa [hlist] using htext.2
    have hput : putWord (c :: rest) = fun ts => some (.word text :: ts) := by
      funext ts
      simp [putWord, hdigit, ← hlist]
    rw [hput]
    cases tokensFrom [] cs <;> rfl

theorem isIdentChar_of_isDigit {c : Char} (h : c.isDigit = true) : isIdentChar c = true := by
  simp [isIdentChar, Char.isAlphanum, h]

/-- A positive number is written without a zero ahead. -/
theorem head?_toDigits_ne_zero {n : Nat} (hn : 0 < n) : (Nat.toDigits 10 n).head? ≠ some '0' := by
  induction n using Nat.strongRecOn with
  | ind n ih =>
    rcases Nat.lt_or_ge n 10 with hlt | hge
    · rw [Nat.toDigits_of_lt_base hlt]
      interval_cases n <;> decide
    · rw [Nat.toDigits_of_base_le (by decide) hge, head?_append_of_ne_nil _ Nat.toDigits_ne_nil]
      exact ih (n / 10) (by omega) (by omega)

theorem numberToken?_toDigits (n : Nat) : numberToken? (Nat.toDigits 10 n) = some (.number n) := by
  have hdigits : (Nat.toDigits 10 n).all Char.isDigit = true := by
    rw [all_eq_true]
    exact fun c => Nat.isDigit_of_mem_toDigits (by decide) le_rfl
  have hzero :
      ((Nat.toDigits 10 n).head? != some '0' || (Nat.toDigits 10 n).length == 1) = true := by
    rcases Nat.eq_zero_or_pos n with rfl | hn
    · rfl
    · simp [head?_toDigits_ne_zero hn]
  rw [numberToken?, hdigits, hzero, Nat.ofDigitChars_ten_toDigits]
  rfl

theorem tokensFrom_number (n : Nat) (hcs : EndsWord cs) :
    tokensFrom [] ((toString n).toList ++ cs) = (tokensFrom [] cs).map (.number n :: ·) := by
  have hdigit : ∀ c ∈ Nat.toDigits 10 n, c.isDigit = true := fun c =>
    Nat.isDigit_of_mem_toDigits (by decide) le_rfl
  rw [Nat.toString_eq_ofList_toDigits, String.toList_ofList,
    tokensFrom_append fun c hc => isIdentChar_of_isDigit (hdigit c hc), nil_append,
    tokensFrom_of_endsWord _ hcs]
  have hput : putWord (Nat.toDigits 10 n) = fun ts => some (.number n :: ts) := by
    have hnumber := numberToken?_toDigits n
    cases hlist : Nat.toDigits 10 n with
    | nil => exact absurd hlist Nat.toDigits_ne_nil
    | cons c rest =>
      rw [hlist] at hnumber hdigit
      funext ts
      simp [putWord, hdigit c mem_cons_self, hnumber]
  rw [hput]
  cases tokensFrom [] cs <;> rfl

theorem tokensFrom_punctuator {c : Char} {token : DeclToken} (hc : punctuator? c = some token)
    (cs : List Char) : tokensFrom [] (c :: cs) = (tokensFrom [] cs).map (token :: ·) := by
  have hclass : isIdentChar c = false ∧ c.isWhitespace = false := by
    unfold punctuator? at hc
    split at hc
    case h_6 => cases hc
    all_goals exact ⟨by decide, by decide⟩
  simp only [tokensFrom, hclass.1, hclass.2, Bool.false_eq_true, if_false, hc, putWord]
  cases tokensFrom [] cs <;> rfl

theorem tokensFrom_space (cs : List Char) : tokensFrom [] (' ' :: cs) = tokensFrom [] cs := by
  have hident : isIdentChar ' ' = false := by decide
  have hspace : ' '.isWhitespace = true := by decide
  simp only [tokensFrom, hident, hspace, Bool.false_eq_true, if_false, if_true, putWord]
  cases tokensFrom [] cs <;> rfl

theorem tokensFrom_declarator (hd : isWord d.declared = true) (hcs : EndsWord cs) :
    tokensFrom [] ((d.render id).toList ++ cs) = (tokensFrom [] cs).map (d.tokens ++ ·) := by
  induction d generalizing cs with
  | entity x => exact tokensFrom_word hd hcs
  | pointer d ih =>
    have htext : ((Declarator.pointer d).render id).toList ++ cs =
        '*' :: ((d.render id).toList ++ cs) := by
      simp [Declarator.render]
    rw [htext, tokensFrom_punctuator rfl, ih hd hcs, Option.map_map]
    rfl
  | array d n ih =>
    have htext : ((Declarator.array d n).render id).toList ++ cs =
        (d.render id).toList ++ '[' :: ((toString n).toList ++ ']' :: cs) := by
      simp [Declarator.render]
    rw [htext, ih hd (endsWord_cons (by decide) _), tokensFrom_punctuator rfl,
      tokensFrom_number n (endsWord_cons (by decide) _), tokensFrom_punctuator rfl]
    simp [Option.map_map, Function.comp_def, Declarator.tokens]
  | paren d ih =>
    have htext : ((Declarator.paren d).render id).toList ++ cs =
        '(' :: ((d.render id).toList ++ ')' :: cs) := by
      simp [Declarator.render]
    rw [htext, tokensFrom_punctuator rfl, ih hd (endsWord_cons (by decide) _),
      tokensFrom_punctuator rfl]
    simp [Option.map_map, Function.comp_def, Declarator.tokens]

/-! ### Declarations of a type -/

theorem isWord_of_isIdentifier {x : String} (h : isIdentifier x = true) : isWord x = true := by
  simp only [isIdentifier, Bool.and_eq_true] at h
  exact h.1

section

variable {dialect : Dialect} {x : String} {t : Ty}

@[simp] theorem declared_declaratorOf_entity (t : Ty) (x : String) :
    (declaratorOf t (.entity x)).2.declared = x :=
  declared_declaratorOf t (.entity x)

/-- The declarator is read in one way, whatever type is named ahead of it. -/
theorem readsDeclarator_iff (hx : isIdentifier x = true) (t base : Ty) {u : Ty} :
    ReadsDeclarator .whole (declaratorOf t (.entity x)).2.tokens base y u ↔
      y = x ∧ u = retype base t := by
  have hread := (Declarator.readsDeclarator_tokens
    (wellGrouped_declaratorOf (t := t) (d := .entity x) trivial fun _ _ _ => rfl)
    (by simpa using hx) base).2
  rw [declared_declaratorOf_entity, typeOver_declaratorOf] at hread
  constructor
  · exact fun h => hread.unique h
  · rintro ⟨rfl, rfl⟩
    exact hread

theorem declTokens_declarator (hx : isIdentifier x = true) (t : Ty) :
    declTokens ((declaratorOf t (.entity x)).2.render id) =
      some (declaratorOf t (.entity x)).2.tokens := by
  have htokens := tokensFrom_declarator (d := (declaratorOf t (.entity x)).2)
    (by simpa using isWord_of_isIdentifier hx) endsWord_nil
  rw [append_nil] at htokens
  rw [declTokens, htokens]
  simp [tokensFrom, putWord]

/-- The type that the declarations of a type start with. -/
def specifierOf (t : Ty) : Specifier := (declaratorOf t (Declarator.entity ())).1

theorem specifier_declaratorOf {α : Type} (t : Ty) (d : Declarator α) :
    (declaratorOf t d).1 = specifierOf (baseType t) := by
  fun_induction declaratorOf t d with
  | case6 n element d ih => exact ih
  | case7 n element d ih => exact ih
  | case8 pointee d hne ih => exact ih
  | _ => rfl

theorem render_declarator_ne_empty (hd : isWord d.declared = true) : d.render id ≠ "" := by
  cases d with
  | entity x =>
    rintro rfl
    simp [isWord, Declarator.declared] at hd
  | pointer d | array d n | paren d => simp [Declarator.render]

/-- The name of a type is followed by a blank and the declarator. -/
theorem render_declarationOf (dialect : Dialect) (hx : isIdentifier x = true) (t : Ty) :
    Variable.render dialect (declarationOf [] t x) =
      (specifierOf (baseType t)).render dialect ++
        (" " ++ (declaratorOf t (.entity x)).2.render id) := by
  have hne := render_declarator_ne_empty (d := (declaratorOf t (.entity x)).2)
    (by simpa using isWord_of_isIdentifier hx)
  simp only [Variable.render, Declaration.render, declarationOf, map_nil, specifier_declaratorOf]
  rw [if_neg (by simpa using hne)]
  rfl

theorem declTokens_word {word : String} (hword : isWord word = true) :
    declTokens (word ++ (" " ++ text)) = (declTokens text).map (.word word :: ·) := by
  have hlist : (word ++ (" " ++ text)).toList = word.toList ++ ' ' :: text.toList := by simp
  rw [declTokens, hlist, tokensFrom_word hword (endsWord_cons (by decide) _), tokensFrom_space]
  rfl

/-- Every scalar type is named by a word that stands for it. -/
theorem typeNamed?_specifierOf (dialect : Dialect) {t : Ty}
    (hscalar : ∀ name, baseType t ≠ .struct name) :
    isWord ((specifierOf (baseType t)).render dialect) = true ∧
      typeNamed? dialect ((specifierOf (baseType t)).render dialect) = some (baseType t) := by
  induction t with
  | void => cases dialect <;> decide
  | int w => cases w <;> cases dialect <;> decide
  | float => cases dialect <;> decide
  | double => cases dialect <;> decide
  | ptr t ih => exact ih hscalar
  | array n t ih => exact ih hscalar
  | struct name => exact absurd rfl (hscalar name)

theorem declaresAs_iff_of_reads {ts : List DeclToken} (hts : declTokens text = some ts)
    (hread : ReadsDeclaration dialect ts x t) {u : Ty} :
    DeclaresAs dialect text y u ↔ y = x ∧ u = t := by
  constructor
  · rintro ⟨ts', hts', h⟩
    rw [hts] at hts'
    cases hts'
    exact hread.unique h
  · rintro ⟨rfl, rfl⟩
    exact ⟨ts, hts, hread⟩

theorem declaresAs_iff_of_scalar (dialect : Dialect) (hx : isIdentifier x = true)
    (hscalar : ∀ name, baseType t ≠ .struct name) {u : Ty} :
    DeclaresAs dialect (Variable.render dialect (declarationOf [] t x)) y u ↔ y = x ∧ u = t := by
  obtain ⟨hword, hnamed⟩ := typeNamed?_specifierOf dialect hscalar
  have htokens : declTokens (Variable.render dialect (declarationOf [] t x)) =
      some (.word ((specifierOf (baseType t)).render dialect) ::
        (declaratorOf t (.entity x)).2.tokens) := by
    rw [render_declarationOf dialect hx, declTokens_word hword, declTokens_declarator hx]
    rfl
  have hread : ReadsDeclaration dialect (.word ((specifierOf (baseType t)).render dialect) ::
      (declaratorOf t (.entity x)).2.tokens) x t :=
    .named hnamed ((readsDeclarator_iff hx t _).mpr ⟨rfl, (retype_baseType t).symm⟩)
  exact declaresAs_iff_of_reads htokens hread

theorem declaresAs_iff_of_struct (dialect : Dialect) (hx : isIdentifier x = true) {name : String}
    (hstruct : baseType t = .struct name) (htag : isIdentifier (structTag name) = true) {u : Ty} :
    DeclaresAs dialect (Variable.render dialect (declarationOf [] t x)) y u ↔
      y = x ∧ u = retype (.struct (structTag name)) t := by
  have htokens : declTokens (Variable.render dialect (declarationOf [] t x)) =
      some (.word "struct" :: .word (structTag name) :: (declaratorOf t (.entity x)).2.tokens) := by
    have hspecifier : (specifierOf (baseType t)).render dialect = "struct " ++ structTag name := by
      rw [hstruct]
      rfl
    have hsplit : "struct " = "struct" ++ " " := by decide
    rw [render_declarationOf dialect hx, hspecifier, hsplit, String.append_assoc,
      String.append_assoc, declTokens_word (by decide),
      declTokens_word (isWord_of_isIdentifier htag), declTokens_declarator hx]
    rfl
  have hread : ReadsDeclaration dialect
      (.word "struct" :: .word (structTag name) :: (declaratorOf t (.entity x)).2.tokens) x
      (retype (.struct (structTag name)) t) :=
    .struct htag ((readsDeclarator_iff hx t _).mpr ⟨rfl, rfl⟩)
  exact declaresAs_iff_of_reads htokens hread

end

/-- The declaration of an identifier with some type can be read in one way only. Its declarator
gives the identifier the pointers and arrays of the type, around whatever type is named ahead. So
the declaration denotes exactly the type if that is made of scalars, and the type with the struct by
its tag if it is made of a struct and the tag is an identifier. -/
theorem declaration_denotes_type (dialect : Dialect) (t : Ty) {x : String}
    (hx : isIdentifier x = true) (n : Needs) :
    ∃ d n', Gives (Emit.declare [] t x) n d n' ∧
      (∀ base y u, (∃ ts, declTokens (d.declarator.render id) = some ts ∧
          ReadsDeclarator .whole ts base y u) ↔ y = x ∧ u = retype base t) ∧
      ((∀ name, baseType t ≠ .struct name) →
        ∀ y u, DeclaresAs dialect (Variable.render dialect d) y u ↔ y = x ∧ u = t) ∧
      ∀ name, baseType t = .struct name → isIdentifier (structTag name) = true →
        ∀ y u, DeclaresAs dialect (Variable.render dialect d) y u ↔
          y = x ∧ u = retype (.struct (structTag name)) t := by
  obtain ⟨n', hd⟩ := exists_gives_declare [] t x n
  refine ⟨_, n', hd, ?_, ?_, ?_⟩
  · intro base y u
    change (∃ ts, declTokens ((declaratorOf t (.entity x)).2.render id) = some ts ∧ _) ↔ _
    rw [← readsDeclarator_iff hx]
    simp [declTokens_declarator hx]
  · exact fun hscalar y u => declaresAs_iff_of_scalar dialect hx hscalar
  · exact fun name hstruct htag y u => declaresAs_iff_of_struct dialect hx hstruct htag

/-- Two pointers to four pointers to three integers each. -/
def nestedType : Ty := .array 2 (.ptr (.array 4 (.ptr (.array 3 (.int .w32)))))

theorem declaration_denotes_type_nested :
    isIdentifier "v_p" = true ∧
      ∀ y u, DeclaresAs .c99 "int32_t (*(*v_p[2])[4])[3]" y u ↔ y = "v_p" ∧ u = nestedType := by
  have hx : isIdentifier "v_p" = true := by decide
  obtain ⟨d, n', hd, -, hscalar, -⟩ := declaration_denotes_type .c99 nestedType hx {}
  have htext : Variable.render .c99 d = "int32_t (*(*v_p[2])[4])[3]" := by
    rw [gives_declare hd]
    decide +kernel
  rw [htext] at hscalar
  exact ⟨hx, hscalar (by simp [nestedType, baseType])⟩

end Offload.C
