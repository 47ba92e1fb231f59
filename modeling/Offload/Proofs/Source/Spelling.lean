import Mathlib.Data.List.DropRight
import Mathlib.Data.List.SplitBy
import Offload.Proofs.Source.Expansion

/-!
# Rendered text

The text of a type is rebuilt from its lexemes: a blank stands between two words and behind each
comma. Lexemes that are not quoted hold no blank, so the words of such a text are the runs of
lexemes that nothing parts, and a name can be told from what stands beside it. The text therefore
determines the names in it, once all other lexemes are known.
-/

namespace Offload.Text

open List

variable {xs ys : List Char}

/-- What is dropped from the end is exactly what was put there. -/
theorem dropEndWhile_append {p : Char → Bool} (hxs : ∀ c ∈ xs.getLast?, p c = false)
    (hys : ∀ c ∈ ys, p c = true) : dropEndWhile p (xs ++ ys) = xs := by
  have hkept : xs.reverse.dropWhile p = xs.reverse := by
    cases hx : xs.reverse with
    | nil => rfl
    | cons c cs =>
      have hlast : xs.getLast? = some c := by rw [← head?_reverse, hx, head?_cons]
      rw [dropWhile_cons_of_neg]
      simp [hxs c hlast]
  have hdropped : ys.reverse.dropWhile p = [] := by simpa using hys
  rw [dropEndWhile, reverse_append, dropWhile_append, hdropped, isEmpty_nil,
    if_pos rfl, hkept, reverse_reverse]

theorem trimEnd_append (hxs : ∀ c ∈ xs.getLast?, isBlank c = false)
    (hys : ∀ c ∈ ys, isBlank c = true) : trimEnd (xs ++ ys) = xs :=
  dropEndWhile_append hxs hys

theorem trim_eq_self {cs : List Char} (hhead : ∀ c ∈ cs.head?, isBlank c = false)
    (hlast : ∀ c ∈ cs.getLast?, isBlank c = false) : trim cs = cs := by
  have hstart : trimStart cs = cs := by
    cases cs with
    | nil => rfl
    | cons c cs =>
      apply dropWhile_cons_of_neg
      simp [hhead c rfl]
  have hend : trimEnd (cs ++ []) = cs := trimEnd_append hlast (by simp)
  rw [trim, hstart, ← append_nil cs, hend, append_nil]

theorem words_append (h : ∀ x ∈ xs.getLast?, ∀ y ∈ ys.head?, isBlank x ≠ isBlank y) :
    words (xs ++ ys) = words xs ++ words ys := by
  have hsplit := splitBy_append (r := fun a b => isBlank a == isBlank b) (l := xs) (m := ys)
    fun x hx y hy => beq_eq_false_iff_ne.mpr (h x hx y hy)
  rw [words, hsplit, filter_append]
  rfl

theorem words_of_nonblank {w : List Char} (hne : w ≠ []) (h : ∀ c ∈ w, isBlank c = false) :
    words w = [w] := by
  have hchain : w.IsChain fun a b => (isBlank a == isBlank b) = true := by
    apply List.Pairwise.isChain
    apply pairwise_of_forall_mem_list
    intro a ha b hb
    rw [h a ha, h b hb]
    rfl
  have hkept : w.all isBlank = false := by
    obtain ⟨c, hc⟩ := exists_mem_of_ne_nil w hne
    exact all_eq_false.mpr ⟨c, hc, by simp [h c hc]⟩
  rw [words, splitBy_of_isChain hne hchain]
  simp [hkept]

/-- Words with one blank between them are found again. -/
theorem words_intercalate {ws : List (List Char)}
    (h : ∀ w ∈ ws, w ≠ [] ∧ ∀ c ∈ w, isBlank c = false) : words ([' '].intercalate ws) = ws := by
  induction ws with
  | nil => rfl
  | cons w ws ih =>
    rw [forall_mem_cons] at h
    obtain ⟨⟨hne, hw⟩, h⟩ := h
    cases ws with
    | nil =>
      rw [intercalate_singleton]
      exact words_of_nonblank hne hw
    | cons v ws =>
      obtain ⟨hv, hblank⟩ := h v mem_cons_self
      have hspace : words [' '] = [] := by decide
      have hrest : words ([' '] ++ [' '].intercalate (v :: ws)) = v :: ws := by
        rw [words_append, hspace, ih h, nil_append]
        intro x hx y hy
        obtain ⟨c, cs, rfl⟩ := exists_cons_of_ne_nil hv
        have hx : x = ' ' := by simpa using hx.symm
        have hy : y = c := by
          cases ws <;> simpa [intercalate] using hy.symm
        rw [hx, hy, hblank c mem_cons_self]
        decide
      rw [intercalate_cons_cons, append_assoc, words_append, hrest,
        words_of_nonblank hne hw, singleton_append]
      intro x hx y hy
      have hy : y = ' ' := by simpa using hy.symm
      rw [hy, hw x (mem_of_mem_getLast? hx)]
      decide

theorem intercalate_map_ofList (ws : List (List Char)) :
    " ".intercalate (ws.map String.ofList) = String.ofList ([' '].intercalate ws) := by
  have hws : (ws.map String.ofList).map String.toList = ws := by simp [Function.comp_def]
  rw [← String.toList_inj, String.toList_intercalate, hws]
  exact String.toList_ofList.symm

end Offload.Text

namespace Offload.Source

open List Ascii

variable {c : Char} {l : Lexeme} {ls : List Lexeme} {raw : List Token} {previous : Option Lexeme}

/-! ### Characters of unquoted lexemes -/

/-- The characters of a name. -/
def isNameChar (c : Char) : Bool := c.isAlphanum || c == '_' || c == '$'

/-- The characters of a number. -/
def isNumberChar (c : Char) : Bool := isNameChar c || "'.+-".toList.contains c

/-- Characters with which a name can start. -/
def startsName (c : Char) : Bool := isNameChar c && !c.isDigit

theorem isNumberChar_bounds (h : isNumberChar c = true) : 36 ≤ c.toNat ∧ c.toNat ≤ 122 := by
  have hclass : c.isAlphanum = (decide (c.val ≥ 65 ∧ c.val ≤ 90) || c.val ≥ 97 && c.val ≤ 122 ||
      c.val ≥ 48 && c.val ≤ 57) := rfl
  simp only [isNumberChar, isNameChar, hclass, Bool.or_eq_true, Bool.and_eq_true,
    decide_eq_true_eq, beq_iff_eq, UInt32.le_iff_toNat_le, ge_iff_le] at h
  rcases h with ((h | rfl) | rfl) | h
  · simp at h
    omega
  · decide
  · decide
  · simp at h
    rcases h with rfl | rfl | rfl | rfl <;> decide

theorem isBlank_of_isNumberChar (h : isNumberChar c = true) : Text.isBlank c = false := by
  have hbounds := isNumberChar_bounds h
  simp only [Text.isBlank, Bool.or_eq_false_iff, Bool.and_eq_false_iff, decide_eq_false_iff_not,
    beq_eq_false_iff_ne]
  omega

theorem isNameChar_of_startsName (h : startsName c = true) : isNameChar c = true :=
  (Bool.and_eq_true_iff.mp h).1

theorem isNumberChar_of_isNameChar (h : isNameChar c = true) : isNumberChar c = true := by
  simp [isNumberChar, h]

namespace Lexeme

def chars (l : Lexeme) : List Char := l.spelling.toList

/-- Lexemes without quotes: the names, numbers and punctuators of a text. -/
inductive Unquoted : Lexeme → Prop
  | name {s : String} {c : Char} {cs : List Char} (hs : s.toList = c :: cs)
    (hc : startsName c = true) (hcs : ∀ d ∈ cs, isNameChar d = true) : Unquoted (.ident s)
  | number {s : String} {c : Char} {cs : List Char} (hs : s.toList = c :: cs)
    (hc : c.isDigit = true ∨ c = '.') (hcs : ∀ d ∈ cs, isNumberChar d = true) :
    Unquoted (.number s)
  | punctuator {s : String} (hs : s ∈ punctuators) : Unquoted (punctuator s)

theorem isWord_of_isIdent (h : l.isIdent = true) : l.isWord = true := by
  cases l <;> first | rfl | cases h

theorem isWord_punctuator (s : String) : (punctuator s).isWord = false := by
  unfold punctuator
  split <;> rfl

theorem isIdent_punctuator (s : String) : (punctuator s).isIdent = false := by
  unfold punctuator
  split <;> rfl

/-- No character of a punctuator is blank or stands in a name. -/
theorem punctuators_chars : (punctuators.all fun s => !s.toList.isEmpty &&
    s.toList.all fun c => !isNameChar c && !Text.isBlank c) = true := by decide

theorem chars_punctuator {s : String} (hs : s ∈ punctuators) :
    (punctuator s).chars ≠ [] ∧
      ∀ c ∈ (punctuator s).chars, isNameChar c = false ∧ Text.isBlank c = false := by
  have h := all_eq_true.mp punctuators_chars s hs
  rw [chars, punctuator_spelling]
  simpa using h

namespace Unquoted

variable {l : Lexeme}

theorem chars_ne_nil (h : l.Unquoted) : l.chars ≠ [] := by
  cases h with
  | name hs _ _ => simp [chars, spelling, hs]
  | number hs _ _ => simp [chars, spelling, hs]
  | punctuator hs => exact (chars_punctuator hs).1

theorem isNumberChar_of_word (h : l.Unquoted) (hword : l.isWord = true) :
    ∀ c ∈ l.chars, isNumberChar c = true := by
  cases h with
  | @name s c cs hs hc hcs =>
    rw [chars, spelling, hs, forall_mem_cons]
    exact ⟨isNumberChar_of_isNameChar (isNameChar_of_startsName hc),
      fun d hd => isNumberChar_of_isNameChar (hcs d hd)⟩
  | @number s c cs hs hc hcs =>
    rw [chars, spelling, hs, forall_mem_cons]
    refine ⟨?_, hcs⟩
    rcases hc with hc | rfl
    · simp [isNumberChar, isNameChar, Char.isAlphanum, hc]
    · decide
  | punctuator hs => simp [isWord_punctuator] at hword

theorem isNameChar_of_ident (h : l.Unquoted) (hident : l.isIdent = true) :
    ∀ c ∈ l.chars, isNameChar c = true := by
  cases h with
  | @name s c cs hs hc hcs =>
    rw [chars, spelling, hs, forall_mem_cons]
    exact ⟨isNameChar_of_startsName hc, hcs⟩
  | number hs hc hcs => cases hident
  | punctuator hs => simp [isIdent_punctuator] at hident

theorem isNameChar_of_not_word (h : l.Unquoted) (hword : l.isWord = false) :
    ∀ c ∈ l.chars, isNameChar c = false := by
  cases h with
  | name hs _ _ => cases hword
  | number hs _ _ => cases hword
  | punctuator hs => exact fun c hc => ((chars_punctuator hs).2 c hc).1

theorem isBlank_eq_false (h : l.Unquoted) : ∀ c ∈ l.chars, Text.isBlank c = false := by
  cases hword : l.isWord with
  | true => exact fun c hc => isBlank_of_isNumberChar (h.isNumberChar_of_word hword c hc)
  | false =>
    cases h with
    | name hs _ _ => cases hword
    | number hs _ _ => cases hword
    | punctuator hs => exact fun c hc => ((chars_punctuator hs).2 c hc).2

/-- The first character tells a name from everything else. -/
theorem exists_chars_eq_cons (h : l.Unquoted) :
    ∃ c cs, l.chars = c :: cs ∧ startsName c = l.isIdent ∧ Text.isBlank c = false := by
  obtain ⟨c, cs, hcons⟩ := exists_cons_of_ne_nil h.chars_ne_nil
  have hmem : c ∈ l.chars := hcons ▸ mem_cons_self
  refine ⟨c, cs, hcons, ?_, h.isBlank_eq_false c hmem⟩
  cases h with
  | name hs hc _ =>
    rw [chars, spelling, hs] at hcons
    rw [← (cons.inj hcons).1, hc]
    rfl
  | number hs hc _ =>
    rw [chars, spelling, hs] at hcons
    rw [← (cons.inj hcons).1]
    rcases hc with hc | rfl
    · simp [startsName, hc, isIdent, ident?]
    · exact (by decide : startsName '.' = false)
  | punctuator hs =>
    rw [isIdent_punctuator, startsName, ((chars_punctuator hs).2 c hmem).1]
    rfl

end Unquoted

end Lexeme

/-! ### Lexemes of a document -/

theorem toList_ofBytes_of_ascii {bs : List UInt8} (h : ∀ b ∈ bs, b < 0x80) :
    (Text.ofBytes bs).toList = bs.map latin1 := by
  rw [Text.ofBytes, String.toList_ofList]
  induction bs with
  | nil => rfl
  | cons b bs ih =>
    rw [forall_mem_cons] at h
    rw [Text.decodeFrom, Text.lead, if_pos h.1, map_cons]
    simp only
    rw [ih h.2]

theorem latin1_classes (b : UInt8) :
    isNameChar (latin1 b) = isIdentContinue b ∧
      startsName (latin1 b) = isIdentStart b ∧
      isNumberChar (latin1 b) = isNumberByte b ∧ (latin1 b).isDigit = isDigit b := by
  have hall : ∀ n : Fin 256, isNameChar (latin1 ⟨⟨n⟩⟩) = isIdentContinue ⟨⟨n⟩⟩ ∧
      startsName (latin1 ⟨⟨n⟩⟩) = isIdentStart ⟨⟨n⟩⟩ ∧
      isNumberChar (latin1 ⟨⟨n⟩⟩) = isNumberByte ⟨⟨n⟩⟩ ∧
      (latin1 ⟨⟨n⟩⟩).isDigit = isDigit ⟨⟨n⟩⟩ := by decide +kernel
  exact hall b.toBitVec.toFin

/-- A lexeme as the scanner makes them, other than `eof`. -/
inductive Lexeme.Formed : Lexeme → Prop
  | name {s : String} {b : UInt8} {bs : List UInt8} (hs : Text.bytes s = b :: bs)
    (hb : isIdentStart b = true) (hbs : ∀ c ∈ bs, isIdentContinue c = true) : Formed (.ident s)
  | number {s : String} {b : UInt8} {bs : List UInt8} (hs : Text.bytes s = b :: bs)
    (hb : (Ascii.isDigit b || b == Ascii.dot && bs.head?.any Ascii.isDigit) = true)
    (hbs : numberTail b bs = bs.length ∧ ∀ c ∈ b :: bs, isNumberByte c = true) : Formed (.number s)
  | string (s : String) : Formed (.str s)
  | character {s : String} {bs : List UInt8} (hs : Text.bytes s = Ascii.singleQuote :: bs) :
    Formed (.char s)
  | punctuator {s : String} (hs : s ∈ punctuators) : Formed (punctuator s)

theorem formed_of_scanToken {b : UInt8} {tail : List UInt8} {r : Scanned}
    (h : scanToken b tail = .ok r) : r.lexeme.Formed := by
  rcases scanToken_ok h with
    hstring | ⟨bs, after, -, hb, hbs, rfl⟩ | ⟨bs, after, -, hb, hbs, rfl⟩ | ⟨rfl, rfl⟩ | hp
  · obtain ⟨s, hs⟩ := (scanString?_sound hstring).2
    rw [hs]
    exact .string s
  · exact .name (bytes_word (isNumberByte_of_name hb hbs)) hb hbs
  · exact .number (bytes_word hbs.2) hb hbs
  · have hquote (bs : List UInt8) : Text.bytes (Text.ofBytes (singleQuote :: bs)) =
        singleQuote :: (Text.decodeFrom none bs).flatMap String.utf8EncodeChar := by
      rw [Text.ofBytes, Text.decodeFrom_whole (by decide), Text.bytes, String.toList_ofList]
      rfl
    unfold scanCharacter
    split
    split_ifs
    · exact .character (hquote _)
    · rw [length_cons, Nat.add_min_add_right]
      exact .character (hquote _)
  · obtain ⟨s, hs, -, rfl⟩ := scanPunctuator?_some hp
    exact .punctuator hs

/-- Names, numbers and punctuators are all that stands in a type without literals. -/
def Lexeme.isUnquoted : Lexeme → Bool
  | .str _ | .char _ | .eof => false
  | _ => true

theorem Lexeme.Formed.unquoted (h : l.Formed) (hl : l.isUnquoted = true) : l.Unquoted := by
  have hchars {s : String} {bs : List UInt8} (hs : Text.bytes s = bs)
      (hbs : ∀ b ∈ bs, isNumberByte b = true) : s.toList = bs.map latin1 := by
    rw [← toList_ofBytes_of_ascii fun b hb => isNumberByte_ascii (hbs b hb), ← hs,
      Text.ofBytes_bytes]
  cases h with
  | @name s b bs hs hb hbs =>
    refine .name (hchars hs (isNumberByte_of_name hb hbs)) ?_ ?_
    · rw [(latin1_classes b).2.1, hb]
    · exact forall_mem_map.mpr fun c hc => by rw [(latin1_classes c).1, hbs c hc]
  | @number s b bs hs hb hbs =>
    refine .number (hchars hs hbs.2) ?_ ?_
    · rw [Bool.or_eq_true, Bool.and_eq_true, beq_iff_eq] at hb
      rw [(latin1_classes b).2.2.2]
      exact hb.imp_right fun hdot => by rw [hdot.1]; decide
    · exact forall_mem_map.mpr fun c hc => by
        rw [(latin1_classes c).2.2.1, hbs.2 c (mem_cons_of_mem _ hc)]
  | string s => cases hl
  | character hs => cases hl
  | punctuator hs => exact .punctuator hs

theorem Scan.Runs.formed {s : Scan} {found : List Diagnostic} (h : s.Runs raw found) :
    ∀ t ∈ raw, t.lexeme ≠ .eof → t.lexeme.Formed := by
  refine (h.holds (I := fun _ => True) (R := fun _ _ => True) trivial (List.Subset.refl _)
    fun {s step} _ hstep _ => ⟨fun hne => ?_, fun _ => ⟨trivial, fun _ _ => trivial⟩⟩).1
  rcases hm : skip .code s.offset s.lineStart s.rest with ⟨m, gaps⟩
  rcases Scan.step_ok hstep hm with ⟨-, rfl⟩ | ⟨b, tail, r, -, hr, rfl⟩
  · exact absurd rfl hne
  · exact formed_of_scanToken hr

/-- The tokens of a preprocessed document are spelled as the lexer spells them. -/
theorem unquoted_of_preprocess {name text : String} {found : List Diagnostic} {pp : Preprocessed}
    (hraw : tokenize (.ofText name text) = .ok (raw, found))
    (hpp : preprocess (.ofText name text) raw = .ok pp) {t : Token} (ht : t ∈ pp.tokens)
    (hquotes : t.lexeme.isUnquoted = true) : t.lexeme.Unquoted := by
  have hempty : ∀ name body, MacroTable.body? [] name = some body ↔ LiveAt raw 0 name body := by
    simp [MacroTable.body?, LiveAt]
  have hruns := Scan.runs_of_tokens hraw
  obtain ⟨pp', parts, hpp', hparted⟩ := @preprocessFrom_parted _ raw
    (Text.isUtf8_bytes text) (hruns.written rfl) (tokenized_of_tokenize hraw).pairwise raw.length
    0 [] (by omega) hempty (by simp)
  obtain rfl : pp' = pp := Except.ok.inj (hpp'.symm.trans hpp)
  rw [hparted.tokens_eq] at ht
  obtain ⟨part, hpart, htpart⟩ := mem_flatten.mp ht
  obtain ⟨i, hi⟩ := mem_iff_getElem?.mp hpart
  obtain ⟨u, hu, hcontributes⟩ := hparted.exists_getElem? hi
  -- Expanding macros makes no new lexemes.
  obtain ⟨v, hv, hlexeme⟩ : ∃ v ∈ raw, t.lexeme = v.lexeme := by
    rcases hcontributes.of_mem htpart with rfl | ⟨-, k, v, hv, hlexeme⟩
    · exact ⟨t, mem_of_getElem? hu, rfl⟩
    · exact ⟨v, mem_of_mem_lineAfter hv, hlexeme⟩
  rw [hlexeme] at hquotes ⊢
  exact (hruns.formed v hv fun heof => by simp [heof, Lexeme.isUnquoted] at hquotes).unquoted hquotes

/-! ### The text of lexemes -/

/-- A blank stands between two words and behind a comma. -/
def spaced (l m : Lexeme) : Bool := (l.isWord && m.isWord) || l == .symbol .comma

def gap : Option Lexeme → Lexeme → List Char
  | none, _ => []
  | some l, m => if spaced l m then [' '] else []

/-- The text of lexemes that stand behind `previous`. -/
def spellFrom : Option Lexeme → List Lexeme → List Char
  | _, [] => []
  | previous, l :: ls => gap previous l ++ (l.chars ++ spellFrom (some l) ls)

def spell (ls : List Lexeme) : List Char := spellFrom none ls

theorem toList_renderFrom (previous : Option Lexeme) (ts : List Token) :
    (renderFrom previous ts).toList = spellFrom previous (ts.map Token.lexeme) := by
  induction ts generalizing previous with
  | nil => simp [renderFrom, spellFrom]
  | cons t ts ih =>
    cases previous with
    | none => simp [renderFrom, spellFrom, gap, Lexeme.chars, ih]
    | some p =>
      cases hspaced : spaced p t.lexeme with
      | true =>
        unfold spaced at hspaced
        simp [renderFrom, spellFrom, gap, spaced, Lexeme.chars, ih, hspaced]
      | false =>
        unfold spaced at hspaced
        simp [renderFrom, spellFrom, gap, spaced, Lexeme.chars, ih, hspaced]

theorem toList_render (ts : List Token) : (render ts).toList = spell (ts.map Token.lexeme) :=
  toList_renderFrom none ts

theorem render_eq (ts : List Token) : render ts = String.ofList (spell (ts.map Token.lexeme)) := by
  rw [← toList_render, String.ofList_toList]

theorem spellFrom_append (previous : Option Lexeme) (ls ms : List Lexeme) :
    spellFrom previous (ls ++ ms) =
      spellFrom previous ls ++ spellFrom (ls.getLast?.or previous) ms := by
  induction ls generalizing previous with
  | nil => rfl
  | cons l ls ih =>
    have hlast : (l :: ls).getLast?.or previous = ls.getLast?.or (some l) := by
      rw [getLast?_cons]
      cases ls.getLast? <;> rfl
    rw [cons_append, spellFrom, spellFrom, ih, hlast]
    simp only [append_assoc]

theorem spell_append (ls ms : List Lexeme) :
    spell (ls ++ ms) = spell ls ++ spellFrom ls.getLast? ms := by
  rw [spell, spellFrom_append, Option.or_none]
  rfl

theorem spell_concat (ls : List Lexeme) (l : Lexeme) :
    spell (ls ++ [l]) = spell ls ++ (gap ls.getLast? l ++ l.chars) := by
  rw [spell_append, spellFrom, spellFrom, append_nil]

theorem gap_eq (previous : Option Lexeme) (l : Lexeme) :
    gap previous l = if previous.any (spaced · l) then [' '] else [] := by
  cases previous <;> rfl

theorem isBlank_gap : ∀ c ∈ gap previous l, Text.isBlank c = true := by
  rw [gap_eq]
  split <;> simp [Text.isBlank]

theorem contains_spellFrom (hc : Text.isBlank c = false) (previous : Option Lexeme) :
    (spellFrom previous ls).contains c = ls.any fun l => l.chars.contains c := by
  induction ls generalizing previous with
  | nil => rfl
  | cons l ls ih =>
    have hgap : (gap previous l).contains c = false := by
      rw [contains_eq_mem, decide_eq_false_iff_not]
      intro hmem
      rw [isBlank_gap c hmem] at hc
      cases hc
    rw [spellFrom, contains_append, contains_append, hgap, any_cons, ih]
    rfl

section Unquoted

variable {ls ms : List Lexeme} (hls : ∀ l ∈ ls, l.Unquoted)

include hls

/-- A text ends as its last lexeme does. -/
theorem getLast?_spell : (spell ls).getLast? = ls.getLast?.bind fun l => l.chars.getLast? := by
  induction ls using reverseRecOn with
  | nil => rfl
  | append_singleton ls l _ =>
    have hne := (hls l (by simp)).chars_ne_nil
    rw [spell_concat, ← append_assoc, getLast?_append_of_ne_nil _ hne,
      getLast?_concat, Option.bind_some]

theorem isBlank_getLast?_spell : ∀ c ∈ (spell ls).getLast?, Text.isBlank c = false := by
  intro c hc
  rw [getLast?_spell hls] at hc
  obtain ⟨l, hl, hc⟩ := Option.mem_bind_iff.mp hc
  exact (hls l (mem_of_mem_getLast? hl)).isBlank_eq_false c (mem_of_mem_getLast? hc)

theorem trim_spell : Text.trim (spell ls) = spell ls := by
  apply Text.trim_eq_self _ (isBlank_getLast?_spell hls)
  cases ls with
  | nil => simp [spell, spellFrom]
  | cons l ls =>
    obtain ⟨c, cs, hcons, -, hblank⟩ := (hls l mem_cons_self).exists_chars_eq_cons
    simp [spell, spellFrom, gap, hcons, hblank]

theorem trimEnd_spell (previous : Option Lexeme) (l : Lexeme) :
    Text.trimEnd (spell ls ++ gap previous l) = spell ls :=
  Text.trimEnd_append (isBlank_getLast?_spell hls) isBlank_gap

theorem length_le_length_spell (previous : Option Lexeme) :
    ls.length ≤ (spellFrom previous ls).length := by
  induction ls generalizing previous with
  | nil => simp
  | cons l ls ih =>
    rw [forall_mem_cons] at hls
    have hpos := length_pos_of_ne_nil hls.1.chars_ne_nil
    have hrest := ih hls.2 (some l)
    simp only [spellFrom, length_append, length_cons]
    omega

end Unquoted

/-! ### Words -/

/-- No blank stands between the two. -/
def glued (l m : Lexeme) : Bool := !spaced l m

theorem spellFrom_of_glued (h : (l :: ls).IsChain fun a b => glued a b) :
    spellFrom (some l) ls = ls.flatMap Lexeme.chars := by
  induction ls generalizing l with
  | nil => rfl
  | cons m ls ih =>
    obtain ⟨hglued, h⟩ := isChain_cons_cons.mp h
    have hgap : gap (some l) m = [] := by
      rw [glued, Bool.not_eq_true'] at hglued
      simp [gap, hglued]
    rw [spellFrom, hgap, ih h, flatMap_cons, nil_append]

theorem spell_of_glued (h : ls.IsChain fun a b => glued a b) :
    spell ls = ls.flatMap Lexeme.chars := by
  cases ls with
  | nil => rfl
  | cons l ls =>
    rw [spell, spellFrom, spellFrom_of_glued h, flatMap_cons]
    rfl

/-- Lexemes in runs, such that the blanks of the text stand between the runs. -/
structure InRuns (gs : List (List Lexeme)) : Prop where
  ne_nil : [] ∉ gs
  glued : ∀ g ∈ gs, g.IsChain fun a b => glued a b
  spaced : gs.IsChain fun g h => ∃ hg hh, Source.glued (g.getLast hg) (h.head hh) = false

theorem inRuns_splitBy (ls : List Lexeme) : InRuns (ls.splitBy glued) :=
  ⟨nil_notMem_splitBy _ _, fun _ => isChain_of_mem_splitBy,
    isChain_getLast_head_splitBy _ _⟩

theorem spell_flatten {gs : List (List Lexeme)} (h : InRuns gs) :
    spell gs.flatten = [' '].intercalate (gs.map (flatMap Lexeme.chars)) := by
  induction gs with
  | nil => rfl
  | cons g gs ih =>
    have hg := spell_of_glued (h.glued g mem_cons_self)
    cases gs with
    | nil => simp [hg]
    | cons k gs =>
      obtain ⟨⟨hlast, hhead, hspaced⟩, hchain⟩ := isChain_cons_cons.mp h.spaced
      have hrest := ih ⟨fun hnil => h.ne_nil (mem_cons_of_mem _ hnil),
        fun g hg => h.glued g (mem_cons_of_mem _ hg), hchain⟩
      obtain ⟨m, ms, rfl⟩ := exists_cons_of_ne_nil hhead
      have hblank : spellFrom g.getLast? ((m :: ms) :: gs).flatten =
          ' ' :: spell ((m :: ms) :: gs).flatten := by
        rw [glued, Bool.not_eq_false', head_cons] at hspaced
        rw [getLast?_eq_getLast_of_ne_nil hlast]
        simp [spell, spellFrom, gap, hspaced]
      rw [flatten_cons, spell_append, hg, hblank, hrest]
      simp [intercalate_cons_cons]

theorem words_spell {gs : List (List Lexeme)} (h : InRuns gs) (hgs : ∀ l ∈ gs.flatten, l.Unquoted) :
    Text.words (spell gs.flatten) = gs.map (flatMap Lexeme.chars) := by
  rw [spell_flatten h, Text.words_intercalate]
  rw [forall_mem_map]
  intro g hg
  have hmem : ∀ l ∈ g, l.Unquoted := fun l hl => hgs l (mem_flatten.mpr ⟨g, hg, hl⟩)
  constructor
  · intro hnil
    obtain ⟨l, ls, rfl⟩ := exists_cons_of_ne_nil fun hg' => h.ne_nil (hg' ▸ hg)
    rw [flatMap_cons, append_eq_nil_iff] at hnil
    exact (hmem l mem_cons_self).chars_ne_nil hnil.1
  · intro c hc
    obtain ⟨l, hl, hc⟩ := mem_flatMap.mp hc
    exact (hmem l hl).isBlank_eq_false c hc

/-! ### Names -/

/-- Two texts that begin with a stretch of one kind begin with the same stretch. -/
theorem append_inj_of_stops {p : Char → Bool} {us vs xs ys : List Char}
    (hus : ∀ c ∈ us, p c = true) (hvs : ∀ c ∈ vs, p c = true)
    (hxs : ∀ c ∈ xs.head?, p c = false) (hys : ∀ c ∈ ys.head?, p c = false)
    (h : us ++ xs = vs ++ ys) : us = vs ∧ xs = ys := by
  have hstops : ∀ {zs : List Char}, (∀ c ∈ zs.head?, p c = false) → zs.takeWhile p = [] := by
    intro zs hzs
    cases zs with
    | nil => rfl
    | cons c zs => simp [hzs c rfl]
  have hfront := congrArg (takeWhile p) h
  rw [takeWhile_append_of_pos hus, takeWhile_append_of_pos hvs, hstops hxs, hstops hys,
    append_nil, append_nil] at hfront
  subst hfront
  exact ⟨rfl, append_cancel_left h⟩

/-- What stands behind a word is no part of it. -/
theorem head?_spellFrom (hl : l.isWord = true) (hls : ∀ l ∈ ls, l.Unquoted) :
    ∀ c ∈ (spellFrom (some l) ls).head?, isNameChar c = false := by
  intro c hc
  cases ls with
  | nil => cases hc
  | cons m ls =>
    have hm := hls m mem_cons_self
    obtain ⟨d, ds, hcons, -, -⟩ := hm.exists_chars_eq_cons
    cases hword : m.isWord with
    | true =>
      have hspace : c = ' ' := by simpa [spellFrom, gap, spaced, hl, hword] using hc.symm
      rw [hspace]
      decide
    | false =>
      have hcomma : (l == .symbol .comma) = false := by
        rw [beq_eq_false_iff_ne]
        rintro rfl
        cases hl
      have hfirst : c = d := by
        simpa [spellFrom, gap, spaced, hword, hcomma, hcons] using hc.symm
      rw [hfirst]
      exact hm.isNameChar_of_not_word hword d (hcons ▸ mem_cons_self)

theorem Lexeme.eq_of_chars_eq {m : Lexeme} (hl : l.isIdent = true) (hm : m.isIdent = true)
    (h : l.chars = m.chars) : l = m := by
  cases l <;> cases m <;> simp_all [isIdent, ident?, chars, spelling, String.toList_inj]

/-- A name is never taken for something else. -/
theorem spellFrom_name_ne {m : Lexeme} (hl : l.Unquoted) (hm : m.Unquoted)
    (hname : l.isIdent = true) (hother : m.isIdent = false) (xs ys : List Char) :
    gap previous l ++ (l.chars ++ xs) ≠ gap previous m ++ (m.chars ++ ys) := by
  obtain ⟨c, cs, hc, hstart, -⟩ := hl.exists_chars_eq_cons
  obtain ⟨d, ds, hd, hstart', hblank⟩ := hm.exists_chars_eq_cons
  have hne : c ≠ d := by
    rintro rfl
    rw [hstart, hname, hother] at hstart'
    cases hstart'
  have hspace : ' ' ≠ d := by
    rintro rfl
    exact absurd hblank (by decide)
  have hword := Lexeme.isWord_of_isIdent hname
  rw [hc, hd, gap_eq, gap_eq]
  cases previous with
  | none => simp [hne]
  | some p =>
    by_cases hright : spaced p m = true
    · have hleft : spaced p l = true := by
        simp only [spaced, hword, Bool.and_true, Bool.or_eq_true, Bool.and_eq_true] at hright ⊢
        exact hright.imp_left And.left
      simp [hleft, hright, hne]
    · by_cases hleft : spaced p l = true
      · simp [hleft, hright, hspace]
      · simp [hleft, hright, hne]

/-- The text of lexemes determines the names among them. -/
theorem spellFrom_injective {ms : List Lexeme} (hls : ∀ l ∈ ls, l.Unquoted)
    (hms : ∀ l ∈ ms, l.Unquoted)
    (hsame : ls.filter (fun l => !l.isIdent) = ms.filter (fun l => !l.isIdent))
    (h : spellFrom previous ls = spellFrom previous ms) : ls = ms := by
  induction ls generalizing ms previous with
  | nil =>
    have hlength := length_le_length_spell hms previous
    rw [← h] at hlength
    exact (eq_nil_of_length_eq_zero (Nat.le_zero.mp hlength)).symm
  | cons l ls ih =>
    rw [forall_mem_cons] at hls
    cases ms with
    | nil =>
      have hpos := length_pos_of_ne_nil hls.1.chars_ne_nil
      have hlength := congrArg length h
      simp only [spellFrom, length_append, length_nil] at hlength
      omega
    | cons m ms =>
      rw [forall_mem_cons] at hms
      rw [spellFrom, spellFrom] at h
      cases hl : l.isIdent with
      | true =>
        cases hm : m.isIdent with
        | true =>
          have hgap : gap previous l = gap previous m := by
            rw [gap_eq, gap_eq]
            simp only [spaced, Lexeme.isWord_of_isIdent hl, Lexeme.isWord_of_isIdent hm]
          rw [hgap, append_cancel_left_eq] at h
          obtain ⟨hchars, hrest⟩ := append_inj_of_stops (hls.1.isNameChar_of_ident hl)
            (hms.1.isNameChar_of_ident hm) (head?_spellFrom (Lexeme.isWord_of_isIdent hl) hls.2)
            (head?_spellFrom (Lexeme.isWord_of_isIdent hm) hms.2) h
          obtain rfl := Lexeme.eq_of_chars_eq hl hm hchars
          rw [ih hls.2 hms.2 (by simpa [hl] using hsame) hrest]
        | false => exact absurd h (spellFrom_name_ne hls.1 hms.1 hl hm _ _)
      | false =>
        cases hm : m.isIdent with
        | true => exact absurd h.symm (spellFrom_name_ne hms.1 hls.1 hm hl _ _)
        | false =>
          have hsame : l :: ls.filter (fun l => !l.isIdent) =
              m :: ms.filter (fun l => !l.isIdent) := by simpa [hl, hm] using hsame
          obtain ⟨rfl, hothers⟩ := cons.inj hsame
          rw [append_cancel_left_eq, append_cancel_left_eq] at h
          rw [ih hls.2 hms.2 hothers h]

end Offload.Source
