import Offload.Proofs.Source.Parameter
import Offload.Proofs.Source.Placement
import Offload.Proofs.Split.Qualifier
import Offload.Split.Kernel

/-!
# Element types

The element type of a parameter is found in the text of its type: references and qualifiers are
stripped from the end, and in a text without stars every word that is a qualifier is dropped. Both
steps are carried over to the lexemes of the type, where they take out a qualifier for what stands
directly beside it. Which qualifiers belong to the type as a whole depends on the brackets and
pointers around them, and the two agree only under a condition.
-/

namespace Offload.Split

open Source List

variable {l q : Lexeme} {rest : List Char} {g ls qs : List Lexeme}

/-! ### Stripping the end of the text -/

/-- Strip a word from the end, unless it goes on to the left. -/
def stripWord (word cs : List Char) : Option (List Char) :=
  if word.isSuffixOf cs then
    let rest := cs.take (cs.length - word.length)
    match rest.getLast? with
    | none => some rest
    | some c => if c == ' ' || c == '*' then some rest else none
  else none

theorem stripQualifier?_eq (cs : List Char) :
    stripQualifier? cs = ["const", "volatile"].findSome? fun q => stripWord q.toList cs := rfl

theorem stripWord_append (word rest : List Char) :
    stripWord word (rest ++ word) =
      if rest.getLast?.all fun c => c == ' ' || c == '*' then some rest else none := by
  have hsuffix : word.isSuffixOf (rest ++ word) = true :=
    isSuffixOf_iff_suffix.mpr (suffix_append _ _)
  have htake : (rest ++ word).take ((rest ++ word).length - word.length) = rest := by simp
  rw [stripWord, if_pos hsuffix]
  simp only [htake]
  cases rest.getLast? <;> rfl

theorem stripWord_eq_some_iff {word cs : List Char} :
    stripWord word cs = some rest ↔ cs = rest ++ word ∧ ∀ c ∈ rest.getLast?, c = ' ' ∨ c = '*' := by
  have hall : ∀ o : Option Char, (o.all fun c => c == ' ' || c == '*') = true ↔
      ∀ c ∈ o, c = ' ' ∨ c = '*' := by
    intro o
    cases o <;> simp
  constructor
  · intro h
    by_cases hsuffix : word.isSuffixOf cs = true
    · obtain ⟨front, rfl⟩ := isSuffixOf_iff_suffix.mp hsuffix
      rw [stripWord_append] at h
      split_ifs at h with hedge
      obtain rfl := Option.some.inj h
      exact ⟨rfl, (hall _).mp hedge⟩
    · rw [stripWord, if_neg hsuffix] at h
      cases h
  · rintro ⟨rfl, hedge⟩
    rw [stripWord_append, if_pos ((hall _).mpr hedge)]

/-- A qualifier is stripped at the start, behind a space and behind a star. -/
theorem stripQualifier?_eq_some_iff {cs : List Char} :
    stripQualifier? cs = some rest ↔ ∃ q ∈ ["const", "volatile"], cs = rest ++ q.toList ∧
      ∀ c ∈ rest.getLast?, c = ' ' ∨ c = '*' := by
  rw [stripQualifier?_eq]
  constructor
  · intro h
    obtain ⟨q, hq, h⟩ := exists_of_findSome?_eq_some h
    exact ⟨q, hq, stripWord_eq_some_iff.mp h⟩
  · rintro ⟨q, hq, h⟩
    rcases mem_pair.mp hq with rfl | rfl
    · rw [findSome?_cons, stripWord_eq_some_iff.mpr h]
    · -- No text ends in both words.
      have hother : stripWord "const".toList cs = none := by
        rw [stripWord, if_neg]
        intro hsuffix
        obtain ⟨front, hfront⟩ := isSuffixOf_iff_suffix.mp hsuffix
        have hlast := congrArg List.getLast? (hfront.trans h.1)
        simp at hlast
      rw [findSome?_cons, hother, findSome?_cons, stripWord_eq_some_iff.mpr h]

/-- What may stand before a qualifier for it to be stripped from the end. -/
def takesQualifier : Option Lexeme → Bool
  | none => true
  | some l => l.isWord || l == .symbol .comma || l.chars.getLast? == some '*'

theorem spaced_qualifier (hq : isQualifier q = true) :
    spaced l q = (l.isWord || l == .symbol .comma) := by
  rw [spaced, isWord_of_isQualifier hq, Bool.and_true]

theorem takesQualifier_iff (hls : ∀ l ∈ ls, l.Unquoted) (hq : isQualifier q = true) :
    takesQualifier ls.getLast? = true ↔
      ∀ c ∈ (spell ls ++ gap ls.getLast? q).getLast?, c = ' ' ∨ c = '*' := by
  cases hlast : ls.getLast? with
  | none =>
    obtain rfl := getLast?_eq_none_iff.mp hlast
    simp [takesQualifier, spell, spellFrom, gap]
  | some m =>
    have hm := hls m (mem_of_getLast? hlast)
    obtain ⟨c, hc⟩ : ∃ c, m.chars.getLast? = some c :=
      ⟨_, getLast?_eq_getLast_of_ne_nil hm.chars_ne_nil⟩
    have hspell : (spell ls).getLast? = some c := by
      rw [getLast?_spell hls, hlast, Option.bind_some, hc]
    have hblank : c ≠ ' ' := by
      rintro rfl
      exact absurd (hm.isBlank_eq_false ' ' (mem_of_getLast? hc)) (by decide)
    rw [takesQualifier, ← spaced_qualifier hq, gap]
    cases spaced m q with
    | true => simp
    | false => simp [hspell, hc, hblank]

/-- Nothing that is part of a name stands directly before a word. -/
theorem getLast?_spell_gap (hls : ∀ l ∈ ls, l.Unquoted) (hl : l.isWord = true) :
    ∀ c ∈ (spell ls ++ gap ls.getLast? l).getLast?, isNameChar c = false := by
  cases hlast : ls.getLast? with
  | none =>
    obtain rfl := getLast?_eq_none_iff.mp hlast
    simp [spell, spellFrom, gap]
  | some m =>
    have hm := hls m (mem_of_getLast? hlast)
    rw [gap, spaced, hl, Bool.and_true]
    cases hspaced : m.isWord || m == .symbol .comma with
    | true =>
      intro c hc
      obtain rfl : ' ' = c := by simpa using hc
      decide
    | false =>
      intro c hc
      have hend : c ∈ m.chars.getLast? := by simpa [getLast?_spell hls, hlast] using hc
      exact hm.isNameChar_of_not_word (Bool.or_eq_false_iff.mp hspaced).1 c
        (mem_of_getLast? hend)

theorem startsName_of_mem {q : String} (hq : q ∈ ["const", "volatile"]) :
    q.toList ≠ [] ∧ ∀ c ∈ q.toList, startsName c = true := by
  rcases mem_pair.mp hq with rfl | rfl
  · exact ⟨by simp, all_eq_true.mp (by decide)⟩
  · exact ⟨by simp, all_eq_true.mp (by decide)⟩

/-- A lexeme that is no name does not end in a qualifier that is stripped. -/
theorem not_stripped_of_not_ident (hl : l.Unquoted) (hident : l.isIdent = false)
    {before : List Char} {q : String} (hq : q ∈ ["const", "volatile"])
    (h : before ++ l.chars = rest ++ q.toList) : ¬ ∀ c ∈ rest.getLast?, c = ' ' ∨ c = '*' := by
  intro hedge
  obtain ⟨hne, hletters⟩ := startsName_of_mem hq
  obtain ⟨c, cs, hcons, hstart, -⟩ := hl.exists_chars_eq_cons
  have hfirst : c ∉ q.toList := by
    intro hmem
    rw [hletters c hmem, hident] at hstart
    cases hstart
  rcases append_eq_append_iff.mp h with ⟨us, hrest, hchars⟩ | ⟨us, -, hword⟩
  · cases hlast : us.getLast? with
    | none =>
      obtain rfl := getLast?_eq_none_iff.mp hlast
      rw [hcons, nil_append] at hchars
      exact hfirst (hchars ▸ mem_cons_self)
    | some d =>
      have hd : d ∈ l.chars := hchars ▸ mem_append_left _ (mem_of_getLast? hlast)
      have hedge' : d = ' ' ∨ d = '*' := by
        apply hedge
        rw [hrest, getLast?_append, hlast]
        rfl
      cases hword : l.isWord with
      | true =>
        have hnumber := hl.isNumberChar_of_word hword d hd
        rcases hedge' with rfl | rfl <;> exact absurd hnumber (by decide)
      | false =>
        obtain ⟨e, he⟩ := exists_mem_of_ne_nil _ hne
        have hname := isNameChar_of_startsName (hletters e he)
        rw [hl.isNameChar_of_not_word hword e (hchars ▸ mem_append_right _ he)] at hname
        cases hname
  · apply hfirst
    rw [hword, hcons]
    exact mem_append_right _ mem_cons_self

theorem stripQualifier?_spell (hls : ∀ l ∈ ls, l.Unquoted) (hl : l.Unquoted) :
    stripQualifier? (spell (ls ++ [l])) =
      if isQualifier l && takesQualifier ls.getLast? then some (spell ls ++ gap ls.getLast? l)
      else none := by
  by_cases hcond : (isQualifier l && takesQualifier ls.getLast?) = true
  · obtain ⟨hq, htakes⟩ := Bool.and_eq_true_iff.mp hcond
    rw [if_pos hcond, stripQualifier?_eq_some_iff, spell_concat]
    rw [takesQualifier_iff hls hq] at htakes
    obtain ⟨q, hmem, rfl⟩ := isQualifier_iff.mp hq
    exact ⟨q, hmem, (append_assoc ..).symm, htakes⟩
  · rw [if_neg hcond, Option.eq_none_iff_forall_ne_some]
    intro rest hrest
    apply hcond
    obtain ⟨q, hmem, heq, hedge⟩ := stripQualifier?_eq_some_iff.mp hrest
    rw [spell_concat, ← append_assoc] at heq
    cases hident : l.isIdent with
    | false => exact absurd hedge (not_stripped_of_not_ident hl hident hmem heq)
    | true =>
      -- Read from the end, both texts begin with a name that stops where the other does.
      have hreverse : l.chars.reverse ++ (spell ls ++ gap ls.getLast? l).reverse =
          q.toList.reverse ++ rest.reverse := by
        rw [← reverse_append, ← reverse_append, heq]
      have hbefore : ∀ c ∈ (spell ls ++ gap ls.getLast? l).reverse.head?, isNameChar c = false := by
        rw [head?_reverse]
        exact getLast?_spell_gap hls (Lexeme.isWord_of_isIdent hident)
      have hstop : ∀ c ∈ rest.reverse.head?, isNameChar c = false := by
        rw [head?_reverse]
        intro c hc
        rcases hedge c hc with rfl | rfl <;> decide
      obtain ⟨hchars, hfront⟩ := append_inj_of_stops
        (by simpa using hl.isNameChar_of_ident hident)
        (by simpa using fun c hc => isNameChar_of_startsName ((startsName_of_mem hmem).2 c hc))
        hbefore hstop hreverse
      obtain rfl : l = .ident q := Lexeme.eq_of_chars_eq hident rfl (reverse_injective hchars)
      have hq : isQualifier (.ident q) = true := isQualifier_iff.mpr ⟨q, hmem, rfl⟩
      rw [hq, Bool.true_and, takesQualifier_iff hls hq, reverse_injective hfront]
      exact hedge

theorem stripQualifiers_spell (hls : ∀ l ∈ ls, l.Unquoted)
    (hqs : ∀ q ∈ qs, q.Unquoted ∧ isQualifier q = true)
    (htakes : qs ≠ [] → takesQualifier ls.getLast? = true)
    (hstop : stripQualifier? (spell ls) = none) {fuel : Nat} (hfuel : qs.length < fuel) :
    stripQualifiers fuel (spell (ls ++ qs)) = spell ls := by
  induction qs using List.reverseRecOn generalizing fuel with
  | nil =>
    cases fuel with
    | zero => exact absurd hfuel (Nat.not_lt_zero _)
    | succ fuel => rw [append_nil, stripQualifiers, hstop]
  | append_singleton qs q ih =>
    rw [forall_mem_append, forall_mem_singleton] at hqs
    obtain ⟨hqs, hunquoted, hq⟩ := hqs
    have hall : ∀ l ∈ ls ++ qs, l.Unquoted := forall_mem_append.mpr ⟨hls, fun q hq => (hqs q hq).1⟩
    have hbefore : takesQualifier (ls ++ qs).getLast? = true := by
      cases hlast : qs.getLast? with
      | none =>
        obtain rfl := getLast?_eq_none_iff.mp hlast
        rw [append_nil]
        exact htakes (by simp)
      | some r =>
        have hr := isWord_of_isQualifier (hqs r (mem_of_getLast? hlast)).2
        rw [getLast?_append, hlast]
        simp [takesQualifier, hr]
    cases fuel with
    | zero => exact absurd hfuel (Nat.not_lt_zero _)
    | succ fuel =>
      rw [length_append, length_singleton, Nat.add_lt_add_iff_right] at hfuel
      rw [← append_assoc, stripQualifiers, stripQualifier?_spell hall hunquoted, hq, hbefore]
      simp only [Bool.and_self, if_true]
      rw [trimEnd_spell hall]
      exact ih hqs (fun hne => htakes (by simp)) hfuel

/-- Only references end in `&`. -/
theorem punctuators_amp : (punctuators.all fun s => isReference (punctuator s) ||
    s.toList.getLast? != some '&') = true := by decide

theorem getLast?_ne_amp (hl : l.Unquoted) (h : isReference l = false) :
    l.chars.getLast? ≠ some '&' := by
  cases hword : l.isWord with
  | true =>
    intro hamp
    exact absurd (hl.isNumberChar_of_word hword '&' (mem_of_getLast? hamp)) (by decide)
  | false =>
    cases hl with
    | name hs _ _ => cases hword
    | number hs _ _ => cases hword
    | @punctuator s hs =>
      have hall := all_eq_true.mp punctuators_amp s hs
      rw [Lexeme.chars, punctuator_spelling]
      simpa [h] using hall

theorem chars_of_isReference (h : isReference l = true) : ∀ c ∈ l.chars, (c == '&') = true := by
  rcases isReference_iff.mp h with rfl | rfl
  · exact all_eq_true.mp (by decide)
  · exact all_eq_true.mp (by decide)

theorem spellFrom_some_references {r : Lexeme} {rs : List Lexeme} (hr : isReference r = true)
    (hrs : ∀ r ∈ rs, isReference r = true) : ∀ c ∈ spellFrom (some r) rs, (c == '&') = true := by
  induction rs generalizing r with
  | nil => simp [spellFrom]
  | cons s rs ih =>
    rw [forall_mem_cons] at hrs
    have hgap : gap (some r) s = [] := by
      rcases isReference_iff.mp hr with rfl | rfl <;> rfl
    rw [spellFrom, hgap, nil_append, forall_mem_append]
    exact ⟨chars_of_isReference hrs.1, ih hrs.1 hrs.2⟩

/-- References are written with nothing between them. -/
theorem spellFrom_references (previous : Option Lexeme) {rs : List Lexeme}
    (hrs : ∀ r ∈ rs, isReference r = true) :
    ∃ blanks amps, spellFrom previous rs = blanks ++ amps ∧
      (∀ c ∈ blanks, Text.isBlank c = true) ∧ ∀ c ∈ amps, (c == '&') = true := by
  cases rs with
  | nil => exact ⟨[], [], rfl, by simp, by simp⟩
  | cons r rs =>
    rw [forall_mem_cons] at hrs
    refine ⟨gap previous r, r.chars ++ spellFrom (some r) rs, rfl, isBlank_gap, ?_⟩
    exact forall_mem_append.mpr
      ⟨chars_of_isReference hrs.1, spellFrom_some_references hrs.1 hrs.2⟩

theorem strip_references (hls : ∀ l ∈ ls, l.Unquoted) :
    Text.trimEnd (Text.dropEndWhile (· == '&') (Text.trim (spell ls))) =
      spell (withoutReference ls) := by
  have hsplit : withoutReference ls ++ ls.rtakeWhile isReference = ls :=
    rdropWhile_append_rtakeWhile
  have hkept : ∀ l ∈ withoutReference ls, l.Unquoted := fun l hl =>
    hls l (withoutReference_subset ls hl)
  obtain ⟨blanks, amps, htail, hblanks, hamps⟩ := spellFrom_references
    (withoutReference ls).getLast? fun r (hr : r ∈ ls.rtakeWhile isReference) =>
      mem_rtakeWhile_imp hr
  have htext : spell ls = spell (withoutReference ls) ++ blanks ++ amps := by
    rw [append_assoc, ← htail, ← spell_append, hsplit]
  have hend : ∀ c ∈ (spell (withoutReference ls) ++ blanks).getLast?, (c == '&') = false := by
    intro c hc
    rw [beq_eq_false_iff_ne]
    rintro rfl
    rw [getLast?_append, Option.mem_def, Option.or_eq_some_iff] at hc
    rcases hc with hblank | ⟨-, hlast⟩
    · exact absurd (hblanks '&' (mem_of_getLast? hblank)) (by decide)
    · rw [getLast?_spell hkept] at hlast
      obtain ⟨l, hl, hamp⟩ := Option.bind_eq_some_iff.mp hlast
      exact getLast?_ne_amp (hkept l (mem_of_getLast? hl))
        (getLast?_rdropWhile isReference ls l hl) hamp
  rw [trim_spell hls, htext, Text.dropEndWhile_append hend hamps]
  exact Text.trimEnd_append (isBlank_getLast?_spell hkept) hblanks

/-! ### Dropping words -/

/-- A qualifier that is a word of its own: blanks or the ends of the text on both sides. -/
def standsAlone (before : List Lexeme) (q : Lexeme) (after : List Lexeme) : Bool :=
  before.getLast?.all (spaced · q) && after.head?.all (spaced q ·)

theorem standsAlone_iff {before : List Lexeme} {after : List Lexeme} :
    standsAlone before q after = true ↔
      (∀ l ∈ before.getLast?, spaced l q = true) ∧ ∀ m ∈ after.head?, spaced q m = true := by
  rw [standsAlone, Bool.and_eq_true]
  cases before.getLast? <;> cases after.head? <;> simp

/-- A run of lexemes that is a single qualifier. -/
def isLone (g : List Lexeme) : Bool :=
  match g with
  | [q] => isQualifier q
  | _ => false

theorem isLone_iff : isLone g = true ↔ ∃ q, g = [q] ∧ isQualifier q = true := by
  unfold isLone
  split
  · simp
  · rename_i hne
    simp only [Bool.false_eq_true, false_iff, not_exists, not_and]
    intro q hg
    exact absurd hg (hne q)

/-- The text of a run is a qualifier only if the run is one. -/
theorem eq_singleton_of_chars (hg : g.IsChain fun a b => glued a b)
    (hunquoted : ∀ l ∈ g, l.Unquoted) {q : String} (hq : q ∈ ["const", "volatile"])
    (h : g.flatMap Lexeme.chars = q.toList) : g = [.ident q] := by
  obtain ⟨hne, hletters⟩ := startsName_of_mem hq
  have hmem : ∀ {l : Lexeme}, l ∈ g → ∀ c ∈ l.chars, startsName c = true :=
    fun hl c hc => hletters c (h ▸ mem_flatMap.mpr ⟨_, hl, hc⟩)
  cases g with
  | nil => exact absurd h.symm hne
  | cons l ls =>
    have hl := hunquoted l mem_cons_self
    have hident : l.isIdent = true := by
      obtain ⟨c, cs, hcons, hstart, -⟩ := hl.exists_chars_eq_cons
      rw [← hstart]
      exact hmem mem_cons_self c (hcons ▸ mem_cons_self)
    cases ls with
    | nil =>
      rw [flatMap_singleton] at h
      obtain rfl : l = .ident q := Lexeme.eq_of_chars_eq hident rfl h
      rfl
    | cons m ls =>
      -- What is glued to a name is no word.
      have hword : m.isWord = false := by
        have hglued := (isChain_cons_cons.mp hg).1
        rw [glued, spaced, Lexeme.isWord_of_isIdent hident, Bool.not_eq_true',
          Bool.or_eq_false_iff, Bool.true_and] at hglued
        exact hglued.1
      have hm := hunquoted m (by simp)
      obtain ⟨c, cs, hcons, -, -⟩ := hm.exists_chars_eq_cons
      have hc : c ∈ m.chars := hcons ▸ mem_cons_self
      have hname := hmem (l := m) (by simp) c hc
      rw [startsName, hm.isNameChar_of_not_word hword c hc] at hname
      cases hname

theorem keptWord_eq (hg : g.IsChain fun a b => glued a b) (hunquoted : ∀ l ∈ g, l.Unquoted) :
    (String.ofList (g.flatMap Lexeme.chars) != "const" &&
      String.ofList (g.flatMap Lexeme.chars) != "volatile") = !isLone g := by
  cases hlone : isLone g with
  | true =>
    obtain ⟨l, rfl, hl⟩ := isLone_iff.mp hlone
    obtain ⟨q, hq, rfl⟩ := isQualifier_iff.mp hl
    have htext : String.ofList ([Lexeme.ident q].flatMap Lexeme.chars) = q := by
      rw [flatMap_singleton, Lexeme.chars, Lexeme.spelling, String.ofList_toList]
    rw [htext]
    rcases mem_pair.mp hq with rfl | rfl <;> rfl
  | false =>
    have hne : ∀ q ∈ ["const", "volatile"], String.ofList (g.flatMap Lexeme.chars) ≠ q := by
      intro q hq htext
      have hchars : g.flatMap Lexeme.chars = q.toList := by
        rw [← htext, String.toList_ofList]
      rw [eq_singleton_of_chars hg hunquoted hq hchars, isLone,
        isQualifier_iff.mpr ⟨q, hq, rfl⟩] at hlone
      cases hlone
    simp [hne "const" (by simp), hne "volatile" (by simp)]

/-- A qualifier between two blanks can be left out together with one of them. -/
theorem spaced_of_spaced_qualifier {m : Lexeme} (hq : isQualifier q = true)
    (hleft : spaced l q = true) (hright : spaced q m = true) : spaced l m = true := by
  have hm : m.isWord = true := by
    have hcomma : (q == .symbol .comma) = false := by
      rw [beq_eq_false_iff_ne]
      rintro rfl
      cases hq
    rwa [spaced, isWord_of_isQualifier hq, hcomma, Bool.true_and, Bool.or_false] at hright
  rw [spaced_qualifier hq] at hleft
  rwa [spaced, hm, Bool.and_true]

/-- A relation that passes over what is left out stays a chain. -/
theorem isChain_filter {α : Type} {R : α → α → Prop} {p : α → Bool}
    (hR : ∀ a b c, p b = false → R a b → R b c → R a c) {l : List α} (h : l.IsChain R) :
    (l.filter p).IsChain R := by
  have hcons : ∀ {l : List α} {a : α}, (a :: l).IsChain R → (a :: l.filter p).IsChain R := by
    intro l
    induction l with
    | nil => exact fun h => h
    | cons b l ih =>
      intro a h
      obtain ⟨hab, hb⟩ := isChain_cons_cons.mp h
      cases hp : p b with
      | true =>
        rw [filter_cons_of_pos hp]
        exact isChain_cons_cons.mpr ⟨hab, ih hb⟩
      | false =>
        rw [filter_cons_of_neg (by simp [hp])]
        apply ih
        rw [isChain_cons] at hb ⊢
        exact ⟨fun c hc => hR a b c hp hab (hb.1 c hc), hb.2⟩
  induction l with
  | nil => exact .nil
  | cons a l ih =>
    cases hp : p a with
    | true =>
      rw [filter_cons_of_pos hp]
      exact hcons h
    | false =>
      rw [filter_cons_of_neg (by simp [hp])]
      exact ih h.tail

theorem inRuns_filter_lone {gs : List (List Lexeme)} (h : InRuns gs) :
    InRuns (gs.filter fun g => !isLone g) where
  ne_nil := fun hnil => h.ne_nil (mem_of_mem_filter hnil)
  glued := fun g hg => h.glued g (mem_of_mem_filter hg)
  spaced := by
    apply isChain_filter _ h.spaced
    intro a b c hb hab hbc
    rw [Bool.not_eq_false'] at hb
    obtain ⟨q, rfl, hq⟩ := isLone_iff.mp hb
    obtain ⟨ha, _, hleft⟩ := hab
    obtain ⟨_, hc, hright⟩ := hbc
    rw [Source.glued, Bool.not_eq_false'] at hleft hright
    refine ⟨ha, hc, ?_⟩
    rw [Source.glued, Bool.not_eq_false']
    exact spaced_of_spaced_qualifier hq hleft hright

/-- All but the qualifiers that are words of their own. -/
def keepsGlued (before : List Lexeme) (l : Lexeme) (after : List Lexeme) : Bool :=
  !(isQualifier l && standsAlone before l after)

theorem keepWhere_flatten {gs : List (List Lexeme)} (h : InRuns gs) {before : List Lexeme}
    (hbefore : ∀ l ∈ before.getLast?, ∀ m ∈ gs.flatten.head?, spaced l m = true) :
    keepWhere keepsGlued before gs.flatten = (gs.filter fun g => !isLone g).flatten := by
  induction gs generalizing before with
  | nil => rfl
  | cons g gs ih =>
    have hgs : InRuns gs := ⟨fun hnil => h.ne_nil (mem_cons_of_mem _ hnil),
      fun g hg => h.glued g (mem_cons_of_mem _ hg), h.spaced.tail⟩
    have hg : g ≠ [] := fun hnil => h.ne_nil (hnil ▸ mem_cons_self)
    have hnext : ∀ l ∈ g.getLast?, ∀ m ∈ gs.flatten.head?, spaced l m = true := by
      intro l hl m hm
      cases gs with
      | nil => cases hm
      | cons k gs =>
        obtain ⟨hlast, hhead, hspaced⟩ := (isChain_cons_cons.mp h.spaced).1
        rw [flatten_cons, head?_append_of_ne_nil _ hhead] at hm
        rw [getLast_of_mem_getLast? hl, head_of_mem_head? hm, glued, Bool.not_eq_false'] at hspaced
        exact hspaced
    have hrest : keepWhere keepsGlued (before ++ g) gs.flatten =
        (gs.filter fun g => !isLone g).flatten := by
      apply ih hgs
      rw [getLast?_append_of_ne_nil _ hg]
      exact hnext
    rw [flatten_cons, keepWhere_append, hrest]
    cases hlone : isLone g with
    | true =>
      obtain ⟨q, rfl, hq⟩ := isLone_iff.mp hlone
      have halone : standsAlone before q gs.flatten = true :=
        standsAlone_iff.mpr ⟨fun l hl => hbefore l hl q rfl, hnext q rfl⟩
      simp [keepWhere, keepsGlued, hq, halone, hlone]
    | false =>
      have hkept : keepWhere (fun before l after => keepsGlued before l (after ++ gs.flatten))
          before g = keepWhere (fun _ _ _ => true) before g := by
        apply keepWhere_congr
        intro mid l after hsplit
        have hchain := h.glued g mem_cons_self
        rw [hsplit, isChain_append] at hchain
        rw [keepsGlued, Bool.not_eq_true', Bool.and_eq_false_imp]
        intro hl
        rw [Bool.eq_false_iff, Ne, standsAlone_iff]
        rintro ⟨hleft, hright⟩
        cases hmid : mid.getLast? with
        | some x =>
          have hspaced := hleft x (by rw [getLast?_append, hmid]; rfl)
          have hglued := hchain.2.2 x hmid l rfl
          rw [glued, hspaced] at hglued
          cases hglued
        | none =>
          obtain rfl := getLast?_eq_none_iff.mp hmid
          cases after with
          | nil =>
            rw [hsplit, nil_append, isLone, hl] at hlone
            cases hlone
          | cons y after =>
            have hspaced := hright y rfl
            have hglued := (isChain_cons_cons.mp hchain.2.1).1
            rw [glued, hspaced] at hglued
            cases hglued
      simp [hkept, keepWhere_const, hlone]

/-- Some lexeme is written with a star. -/
def starred (ls : List Lexeme) : Bool := ls.any fun l => l.chars.contains '*'

/-- What is left after words are dropped. In a text with a star none is. -/
def wordwise (ls : List Lexeme) : List Lexeme :=
  keepWhere (fun before l after => starred ls || keepsGlued before l after) [] ls

theorem drop_words (hls : ∀ l ∈ ls, l.Unquoted) (hstar : starred ls = false) :
    " ".intercalate (((Text.words (spell ls)).map String.ofList).filter
      fun w => w != "const" && w != "volatile") = String.ofList (spell (wordwise ls)) := by
  have hruns := inRuns_splitBy ls
  have hflat : (ls.splitBy glued).flatten = ls := flatten_splitBy glued ls
  have hwords : Text.words (spell ls) = (ls.splitBy glued).map (List.flatMap Lexeme.chars) := by
    have h := words_spell hruns (hflat.symm ▸ hls)
    rwa [hflat] at h
  have hfilter : ((Text.words (spell ls)).map String.ofList).filter
      (fun w => w != "const" && w != "volatile") =
      ((ls.splitBy glued).filter fun g => !isLone g).map
        fun g => String.ofList (g.flatMap Lexeme.chars) := by
    rw [hwords, map_map, filter_map]
    congr 1
    apply filter_congr
    intro g hg
    exact keptWord_eq (hruns.glued g hg) fun l hl =>
      hls l (hflat ▸ mem_flatten.mpr ⟨g, hg, hl⟩)
  have hkept : wordwise ls = ((ls.splitBy glued).filter fun g => !isLone g).flatten := by
    have hflatten : keepWhere keepsGlued [] (ls.splitBy glued).flatten = _ :=
      keepWhere_flatten hruns (by simp)
    rw [hflat] at hflatten
    rw [wordwise, hstar]
    exact hflatten
  rw [hfilter, hkept, spell_flatten (inRuns_filter_lone hruns), ← Text.intercalate_map_ofList,
    map_map]
  rfl

theorem stripQualifier?_spell_eq_none (hls : ∀ l ∈ ls, l.Unquoted)
    (h : ∀ front l, ls = front ++ [l] → (isQualifier l && takesQualifier front.getLast?) = false) :
    stripQualifier? (spell ls) = none := by
  cases ls using List.reverseRecOn with
  | nil => rfl
  | append_singleton front l =>
    rw [forall_mem_append, forall_mem_singleton] at hls
    rw [stripQualifier?_spell hls.1 hls.2, h front l rfl]
    rfl

/-- What is kept of the end of a type decides about the rest. -/
theorem elementType_spell {kept ends : List Lexeme} (hls : ∀ l ∈ ls, l.Unquoted)
    (hsplit : withoutReference ls = kept ++ ends) (hends : ∀ q ∈ ends, isQualifier q = true)
    (htakes : ends ≠ [] → takesQualifier kept.getLast? = true)
    (hstop : ∀ front l, kept = front ++ [l] →
      (isQualifier l && takesQualifier front.getLast?) = false) :
    elementType (String.ofList (spell ls)) = String.ofList (spell (wordwise kept)) := by
  have hwithout : ∀ l ∈ kept ++ ends, l.Unquoted := fun l hl =>
    hls l (withoutReference_subset ls (hsplit ▸ hl))
  have hkept : ∀ l ∈ kept, l.Unquoted := fun l hl => hwithout l (mem_append_left _ hl)
  have hfuel : ends.length < (spell (kept ++ ends)).length + 1 := by
    have hlength := length_le_length_spell hwithout none
    rw [length_append] at hlength
    exact Nat.lt_succ_of_le ((Nat.le_add_left _ _).trans hlength)
  have hstrip := stripQualifiers_spell hkept
    (fun q hq => ⟨hwithout q (mem_append_right _ hq), hends q hq⟩) htakes
    (stripQualifier?_spell_eq_none hkept hstop) hfuel
  have hcontains : (spell kept).contains '*' = starred kept := contains_spellFrom (by decide) none
  unfold elementType
  simp only [String.toList_ofList]
  rw [strip_references hls, hsplit, hstrip, hcontains]
  cases hstar : starred kept with
  | true =>
    have hall : wordwise kept = kept := by
      rw [wordwise, hstar]
      exact keepWhere_const true [] kept
    rw [hall]
    rfl
  | false => exact drop_words hkept hstar

/-- The qualifiers that are found by looking at words are those of the type as a whole. -/
structure FoundByWords (ls : List Lexeme) : Prop where
  /-- Qualifiers at the end do not stand directly behind a punctuator other than a star. -/
  atEnd : core ls ≠ withoutReference ls → takesQualifier (core ls).getLast? = true
  /-- Any other one is a qualifier of the whole type exactly if it is a word of its own, in a text
  without stars. -/
  elsewhere : ∀ before q after, core ls = before ++ q :: after → isQualifier q = true →
    (qualifiesWhole before after = true ↔
      starred (core ls) = false ∧ standsAlone before q after = true)

theorem sparesOthers_keepsInner : SparesOthers keepsInner := by
  intro before l after hl
  rw [keepsInner, hl]
  rfl

theorem sparesOthers_keepsGlued (star : Bool) :
    SparesOthers fun before l after => star || keepsGlued before l after := by
  intro before l after hl
  simp [keepsGlued, hl]

theorem getLast?_keepWhere_concat (keep : List Lexeme → Lexeme → List Lexeme → Bool)
    (ls : List Lexeme) (l : Lexeme) (hl : keep ls l [] = true) :
    (keepWhere keep [] (ls ++ [l])).getLast? = some l := by
  rw [keepWhere_append, nil_append, keepWhere, if_pos hl, keepWhere, getLast?_concat]

/-- Texts in which only names were left out are compared lexeme by lexeme. -/
theorem spell_keepWhere_inj {keep keep' : List Lexeme → Lexeme → List Lexeme → Bool}
    (hkeep : SparesOthers keep) (hkeep' : SparesOthers keep') {ms : List Lexeme}
    (hls : ∀ l ∈ ls, l.Unquoted) (hms : ∀ l ∈ ms, l.Unquoted)
    (hsame : ls.filter (fun l => !l.isIdent) = ms.filter fun l => !l.isIdent) :
    String.ofList (spell (keepWhere keep [] ls)) = String.ofList (spell (keepWhere keep' [] ms)) ↔
      keepWhere keep [] ls = keepWhere keep' [] ms := by
  constructor
  · intro h
    refine spellFrom_injective (fun l hl => hls l ((keepWhere_sublist _ _).subset hl))
      (fun l hl => hms l ((keepWhere_sublist _ _).subset hl)) ?_ (String.ofList_injective h)
    rw [filter_keepWhere hkeep, filter_keepWhere hkeep', hsame]
  · intro h
    rw [h]

theorem wordwise_eq_iff :
    wordwise ls = keepWhere keepsInner [] ls ↔
      ∀ before q after, ls = before ++ q :: after → isQualifier q = true →
        (qualifiesWhole before after = true ↔
          starred ls = false ∧ standsAlone before q after = true) := by
  have hjudged : ∀ before q after, isQualifier q = true →
      ((starred ls || keepsGlued before q after) = keepsInner before q after ↔
        (qualifiesWhole before after = true ↔
          starred ls = false ∧ standsAlone before q after = true)) := by
    intro before q after hq
    rw [keepsGlued, keepsInner, hq]
    cases starred ls <;> cases standsAlone before q after <;> cases qualifiesWhole before after <;>
      simp
  constructor
  · intro h before q after hls hq
    exact (hjudged before q after hq).mp (keep_eq_of_keepWhere_eq (sparesOthers_keepsGlued _)
      sparesOthers_keepsInner evenly_keepsInner h before q after hls)
  · intro h
    apply keepWhere_congr
    intro mid l after hls
    cases hl : isQualifier l with
    | true => exact (hjudged mid l after hl).mpr (h mid l after hls hl)
    | false =>
      rw [sparesOthers_keepsInner _ l after hl]
      exact sparesOthers_keepsGlued _ _ l after hl

/-- A qualifier that is not stripped from the end stays there. -/
theorem wordwise_ne_of_blocked (hq : isQualifier q = true)
    (hlast : ∀ l ∈ ls.getLast?, isQualifier l = false)
    (hblocked : takesQualifier ls.getLast? = false) :
    wordwise (ls ++ [q]) ≠ keepWhere keepsInner [] ls := by
  intro h
  cases ls using List.reverseRecOn with
  | nil => cases hblocked
  | append_singleton front m =>
    rw [getLast?_concat] at hlast hblocked
    have hm := hlast m rfl
    have hspaced : spaced m q = false := by
      rw [spaced_qualifier hq]
      exact (Bool.or_eq_false_iff.mp hblocked).1
    have hkept : keepsGlued (front ++ [m]) q [] = true := by
      simp [keepsGlued, standsAlone, hq, hspaced]
    have hleft := getLast?_keepWhere_concat
      (fun before l after => starred (front ++ [m] ++ [q]) || keepsGlued before l after)
      (front ++ [m]) q (by rw [hkept, Bool.or_true])
    have hright := getLast?_keepWhere_concat keepsInner front m (sparesOthers_keepsInner _ m _ hm)
    rw [wordwise] at h
    rw [h, hright] at hleft
    rw [Option.some.inj hleft, hq] at hm
    cases hm

/-- All qualifiers at the end go, if the first of them does. -/
theorem elementType_of_takes (hls : ∀ l ∈ ls, l.Unquoted)
    (hqs : withoutReference ls = core ls ++ qs) (hqualifiers : ∀ q ∈ qs, isQualifier q = true)
    (htakes : qs ≠ [] → takesQualifier (core ls).getLast? = true) :
    elementType (String.ofList (spell ls)) = String.ofList (spell (wordwise (core ls))) := by
  apply elementType_spell hls hqs hqualifiers htakes
  intro front l hfront
  have hlast : (core ls).getLast? = some l := by rw [hfront, getLast?_concat]
  rw [getLast?_rdropWhile isQualifier (withoutReference ls) l hlast, Bool.false_and]

/-- Otherwise the first of them stays. -/
theorem elementType_of_blocked (hls : ∀ l ∈ ls, l.Unquoted)
    (hqs : withoutReference ls = core ls ++ q :: qs)
    (hqualifiers : ∀ r ∈ q :: qs, isQualifier r = true)
    (hblocked : takesQualifier (core ls).getLast? = false) :
    elementType (String.ofList (spell ls)) = String.ofList (spell (wordwise (core ls ++ [q]))) := by
  rw [forall_mem_cons] at hqualifiers
  have hsplit : withoutReference ls = (core ls ++ [q]) ++ qs := by
    rw [hqs, append_assoc, singleton_append]
  have htakes : takesQualifier (core ls ++ [q]).getLast? = true := by
    simp [takesQualifier, isWord_of_isQualifier hqualifiers.1]
  apply elementType_spell hls hsplit hqualifiers.2 fun _ => htakes
  intro front l hfront
  obtain ⟨rfl, -⟩ := append_inj' hfront rfl
  rw [hblocked, Bool.and_false]

theorem elementType_eq_iff (hls : ∀ l ∈ ls, l.Unquoted)
    (hnesting : Nesting.top.behindAll ls = .top) :
    elementType (String.ofList (spell ls)) = String.ofList (spell (unqualified ls)) ↔
      FoundByWords ls := by
  obtain ⟨qs, hqs, hqualifiers⟩ := core_append ls
  have hwithout : ∀ l ∈ core ls ++ qs, l.Unquoted := fun l hl =>
    hls l (withoutReference_subset ls (hqs ▸ hl))
  have hcore : ∀ l ∈ core ls, l.Unquoted := fun l hl => hwithout l (mem_append_left _ hl)
  rw [unqualified_eq hnesting]
  by_cases htakes : qs ≠ [] → takesQualifier (core ls).getLast? = true
  · rw [elementType_of_takes hls hqs hqualifiers htakes, wordwise, spell_keepWhere_inj
      (sparesOthers_keepsGlued _) sparesOthers_keepsInner hcore hcore rfl]
    constructor
    · intro h
      refine ⟨fun hne => htakes ?_, wordwise_eq_iff.mp h⟩
      rintro rfl
      exact hne (by rw [hqs, append_nil])
    · exact fun h => wordwise_eq_iff.mpr h.elsewhere
  · obtain ⟨hne, hblocked⟩ := Classical.not_imp.mp htakes
    rw [Bool.not_eq_true] at hblocked
    obtain ⟨q, qs, rfl⟩ := exists_cons_of_ne_nil hne
    have hq := hqualifiers q mem_cons_self
    have hkept : ∀ l ∈ core ls ++ [q], l.Unquoted := by
      rw [forall_mem_append, forall_mem_singleton]
      exact ⟨hcore, hwithout q (by simp)⟩
    rw [elementType_of_blocked hls hqs hqualifiers hblocked, wordwise, spell_keepWhere_inj
      (sparesOthers_keepsGlued _) sparesOthers_keepsInner hkept hcore
      (by simp [isIdent_of_isQualifier hq])]
    constructor
    · intro h
      exact absurd h (wordwise_ne_of_blocked hq (getLast?_rdropWhile isQualifier _) hblocked)
    · intro h
      have hend := h.atEnd (by simp [hqs])
      rw [hblocked] at hend
      cases hend

/-! ### Parameters -/

/-- Between the two parts of a type stands no blank. -/
theorem spell_append_of_isType {front back : List Lexeme} (hfront : isType front = true)
    (hback : ∀ l ∈ back.head?, l.isWord = false) :
    spell (front ++ back) = spell front ++ spell back := by
  rw [spell_append]
  cases back with
  | nil => rfl
  | cons l ls =>
    have hgap : gap front.getLast? l = [] := by
      cases hlast : front.getLast? with
      | none => rfl
      | some m =>
        have hcomma : (m == .symbol .comma) = false := by
          rw [beq_eq_false_iff_ne]
          rintro rfl
          exact getLast?_ne_comma hfront hlast
        rw [gap, spaced, hback l rfl, hcomma, Bool.and_false]
        rfl
    rw [spellFrom, hgap]
    rfl

/-- A parameter's element type is the type without its reference and its own qualifiers exactly if
those qualifiers can be told by looking at words. -/
theorem element_type_unqualified_iff {name text : String} {raw : List Token}
    {found : List Diagnostic} {pp : Preprocessed}
    (hraw : tokenize (.ofText name text) = .ok (raw, found))
    (hpp : preprocess (.ofText name text) raw = .ok pp) {a b : Nat} {p : Param}
    (hp : pp.stream.param a b = .ok p) (hfront : isType (pp.stream.typeParts a b).1 = true)
    (hback : isType (pp.stream.typeParts a b).2 = true) :
    elementType p.type = String.ofList (spell (unqualified (pp.stream.typeLexemes a b))) ↔
      FoundByWords (pp.stream.typeLexemes a b) := by
  have htype : p.type = String.ofList (spell (pp.stream.typeLexemes a b)) := by
    rw [TokenStream.typeLexemes, spell_append_of_isType hfront TokenStream.head?_typeParts,
      String.ofList_append]
    exact TokenStream.type_of_param hp
  have hunquoted : ∀ l ∈ pp.stream.typeLexemes a b, l.Unquoted := by
    intro l hl
    obtain ⟨t, ht, rfl⟩ := mem_map.mp (TokenStream.typeLexemes_subset hl)
    apply unquoted_of_preprocess hraw hpp (by simpa [Preprocessed.stream] using ht)
    rcases mem_append.mp hl with hl | hl
    · exact isUnquoted_of_isTypeFrom hfront _ hl
    · exact isUnquoted_of_isTypeFrom hback _ hl
  have hnesting : Nesting.top.behindAll (pp.stream.typeLexemes a b) = .top := by
    rw [TokenStream.typeLexemes, Nesting.behindAll_append, behindAll_of_isTypeFrom hfront,
      behindAll_of_isTypeFrom hback]
  rw [htype]
  exact elementType_eq_iff hunquoted hnesting

/-- A closure with one parameter. -/
def closureText (type : String) : String := "[](" ++ type ++ " p) \x7b return p; \x7d;"

/-- The parameter in `[3, b)` is read, and it and its type pass the check. -/
def readsParam (text : String) (b : Nat)
    (check : List Lexeme × List Lexeme → Param → Bool) : Bool :=
  (tokenize (.ofText "a" text)).toOption.any fun r =>
    (preprocess (.ofText "a" text) r.1).toOption.any fun pp =>
      (pp.stream.param 3 b).toOption.any fun p => check (pp.stream.typeParts 3 b) p

theorem exists_of_readsParam {text : String} {b : Nat}
    {check : List Lexeme × List Lexeme → Param → Bool} (h : readsParam text b check = true) :
    ∃ raw found pp p, tokenize (.ofText "a" text) = .ok (raw, found) ∧
      preprocess (.ofText "a" text) raw = .ok pp ∧ pp.stream.param 3 b = .ok p ∧
      check (pp.stream.typeParts 3 b) p = true := by
  obtain ⟨⟨raw, found⟩, hraw, h⟩ := exists_ok_of_any h
  obtain ⟨pp, hpp, h⟩ := exists_ok_of_any h
  obtain ⟨p, hp, h⟩ := exists_ok_of_any h
  exact ⟨raw, found, pp, p, hraw, hpp, hp, h⟩

/-- A reference to a constant is read, and its qualifier is found. -/
theorem element_type_unqualified_iff_reference : ∃ raw found pp p,
    tokenize (.ofText "a" (closureText "const int&")) = .ok (raw, found) ∧
      preprocess (.ofText "a" (closureText "const int&")) raw = .ok pp ∧
      pp.stream.param 3 7 = .ok p ∧ p.type = "const int&" ∧
      isType (pp.stream.typeParts 3 7).1 = true ∧ isType (pp.stream.typeParts 3 7).2 = true ∧
      FoundByWords (pp.stream.typeLexemes 3 7) := by
  have hread : readsParam (closureText "const int&") 7 (fun parts p => p.type == "const int&" &&
      isType parts.1 && isType parts.2 &&
      elementType p.type == String.ofList (spell (unqualified (parts.1 ++ parts.2)))) = true := by
    decide +kernel
  obtain ⟨raw, found, pp, p, hraw, hpp, hp, hcheck⟩ := exists_of_readsParam hread
  simp only [Bool.and_eq_true, beq_iff_eq] at hcheck
  obtain ⟨⟨⟨htype, hfront⟩, hback⟩, helement⟩ := hcheck
  exact ⟨raw, found, pp, p, hraw, hpp, hp, htype, hfront, hback,
    (element_type_unqualified_iff hraw hpp hp hfront hback).mp helement⟩

/-- A qualifier behind the comma of a template argument list is lost. -/
theorem qualifier_lost_in_template_argument : ∃ raw found pp p,
    tokenize (.ofText "a" (closureText "pair<int, const int>")) = .ok (raw, found) ∧
      preprocess (.ofText "a" (closureText "pair<int, const int>")) raw = .ok pp ∧
      pp.stream.param 3 11 = .ok p ∧ p.type = "pair<int, const int>" ∧
      String.ofList (spell (unqualified (pp.stream.typeLexemes 3 11))) = "pair<int, const int>" ∧
      elementType p.type = "pair<int, int>" := by
  have hread : readsParam (closureText "pair<int, const int>") 11 (fun parts p =>
      p.type == "pair<int, const int>" && elementType p.type == "pair<int, int>" &&
      String.ofList (spell (unqualified (parts.1 ++ parts.2))) == "pair<int, const int>") =
        true := by
    decide +kernel
  obtain ⟨raw, found, pp, p, hraw, hpp, hp, hcheck⟩ := exists_of_readsParam hread
  simp only [Bool.and_eq_true, beq_iff_eq] at hcheck
  obtain ⟨⟨htype, helement⟩, hright⟩ := hcheck
  exact ⟨raw, found, pp, p, hraw, hpp, hp, htype, hright, helement⟩

end Offload.Split
