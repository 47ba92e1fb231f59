import Mathlib.Data.List.TakeWhile
import Offload.Proofs.Compiled.Frame

/-!
# Steps of a reader before other tokens

How much is skipped depends only on what is skipped, or on the token behind it. The name of an
anonymous struct type depends on no token, and what starts a type or a value is not looked past.
-/

namespace Offload.Compiled

open List

/-! ### Skipping a number of tokens -/

namespace Reader

variable {r : Reader} {pre ahead : List Token}

theorem advanceBy_eq (n : Nat) (r : Reader) : r.advanceBy n = { r with
      rest := r.rest.drop n, lastLine := lineAfter r.lastLine (r.rest.take n) } := by
  induction n generalizing r with
  | zero => rfl
  | succ n ih =>
    rw [advanceBy, ih]
    cases hrest : r.rest with
    | nil => simp [advance_of_nil hrest, hrest, lineAfter]
    | cons t rest => simp [advance_of_cons hrest, lineAfter]

theorem advanceBy_length (h : r.rest = pre ++ ahead) :
    r.advanceBy pre.length = { r with rest := ahead, lastLine := lineAfter r.lastLine pre } := by
  rw [advanceBy_eq, h, drop_left, take_left]

end Reader

section

variable {α : Type} {H : Tok → Prop} {P : List Token → Prop}
  {Q : List Token → List Token → Prop} {q : Read α} {r : Reader} {a : α} {pre ahead : List Token}

theorem Taken.advanceBy (hrest : r.rest = pre ++ ahead) (h : ∀ other, Q ahead other →
      Gives q (r.withRest (pre ++ other)) a ((r.withRest (pre ++ other)).advanceBy pre.length)) :
    Taken Q q r a (r.advanceBy pre.length) pre := by
  rw [Reader.advanceBy_length hrest]
  refine ⟨hrest, rfl, fun other hother => ?_⟩
  have hgives := h other hother
  rwa [Reader.advanceBy_length rfl] at hgives

/-- A number of tokens that depends only on those counted. -/
def CountsOnly (P : List Token → Prop) (len : List Token → Option Nat) : Prop :=
  ∀ ⦃ts n⦄, len ts = some n → ∃ pre ahead, ts = pre ++ ahead ∧ pre.length = n ∧ P pre ∧
    ∀ other, len (pre ++ other) = some n

theorem CountsOnly.frames {len : List Token → Option Nat} (hlen : CountsOnly P len)
    {skip : Read Unit} (hskip : ∀ {r u r'}, Gives skip r u r' ↔
      ∃ n, len r.rest = some n ∧ r' = r.advanceBy n) : Frames H P Q skip skip := by
  intro r u r' _ hgives
  obtain ⟨n, hn, rfl⟩ := hskip.mp hgives
  obtain ⟨pre, ahead, hrest, rfl, hpre, hagain⟩ := hlen hn
  exact ⟨pre, hpre, Taken.advanceBy hrest fun other _ => hskip.mpr ⟨_, hagain other, rfl⟩⟩

end

theorem CountsOnly.mono {P P' : List Token → Prop} {len : List Token → Option Nat}
    (h : CountsOnly P len) (hP : ∀ ts, P ts → P' ts) : CountsOnly P' len := by
  intro ts n hn
  obtain ⟨pre, ahead, hts, hlen, hpre, hagain⟩ := h hn
  exact ⟨pre, ahead, hts, hlen, hP pre hpre, hagain⟩

/-- The first token closes the last group that is open, or the rest is counted at some depth. -/
theorem groupLength?_cons (depth : Nat) (t : Token) :
    (∀ rest, Reader.groupLength? depth (t :: rest) = some 1) ∨ ∃ d, ∀ rest,
      Reader.groupLength? depth (t :: rest) = (Reader.groupLength? d rest).map (· + 1) := by
  by_cases hclose : t.tok = .mark ')'
  · rcases depth with _ | _ | depth
    · exact .inl fun rest => by simp [Reader.groupLength?, hclose]
    · exact .inl fun rest => by simp [Reader.groupLength?, hclose]
    · exact .inr ⟨depth + 1, fun rest => by simp [Reader.groupLength?, hclose]⟩
  · by_cases hopen : t.tok = .mark '('
    · exact .inr ⟨depth + 1, fun rest => by simp [Reader.groupLength?, hopen]⟩
    · exact .inr ⟨depth, fun rest => by simp [Reader.groupLength?, hclose]⟩

theorem countsOnly_groupLength? (depth : Nat) :
    CountsOnly (· ≠ []) (Reader.groupLength? depth) := by
  intro ts n h
  induction ts generalizing depth n with
  | nil => simp [Reader.groupLength?] at h
  | cons t rest ih =>
    rcases groupLength?_cons depth t with hone | ⟨d, hd⟩
    · rw [hone, Option.some.injEq] at h
      exact ⟨[t], rest, rfl, h, by simp, fun other => by rw [← h]; exact hone other⟩
    · rw [hd, Option.map_eq_some_iff] at h
      obtain ⟨n, hn, rfl⟩ := h
      obtain ⟨pre, ahead, rfl, rfl, -, hagain⟩ := ih d hn
      refine ⟨t :: pre, ahead, rfl, rfl, by simp, fun other => ?_⟩
      rw [cons_append, hd, hagain, Option.map_some]

theorem countsOnly_lengthThrough? (p : Tok → Bool) :
    CountsOnly (· ≠ []) (Read.lengthThrough? p) := by
  intro ts n h
  rw [Read.lengthThrough?, Option.map_eq_some_iff] at h
  obtain ⟨i, hi, rfl⟩ := h
  induction ts generalizing i with
  | nil => simp at hi
  | cons t rest ih =>
    rw [findIdx?_cons] at hi
    split_ifs at hi with ht
    · cases hi
      exact ⟨[t], rest, rfl, rfl, by simp, fun other => by
        simp [Read.lengthThrough?, findIdx?_cons, ht]⟩
    · rw [Option.map_eq_some_iff] at hi
      obtain ⟨i, hi, rfl⟩ := hi
      obtain ⟨pre, ahead, rfl, hlen, -, hagain⟩ := ih i hi
      refine ⟨t :: pre, ahead, rfl, by rw [length_cons, hlen], by simp, fun other => ?_⟩
      have hother := hagain other
      rw [Read.lengthThrough?, Option.map_eq_some_iff] at hother
      obtain ⟨j, hj, hji⟩ := hother
      obtain rfl : j = i := by omega
      simp [Read.lengthThrough?, findIdx?_cons, ht, hj]

/-- Number of tokens of a group with its opening parenthesis. -/
def wholeGroup? : List Token → Option Nat
  | [] => none
  | t :: rest =>
    if t.tok = .mark '(' then (Reader.groupLength? 1 rest).map (· + 1) else none

theorem countsOnly_wholeGroup? : CountsOnly (2 ≤ ·.length) wholeGroup? := by
  intro ts n h
  cases ts with
  | nil => cases h
  | cons t rest =>
    rw [wholeGroup?] at h
    split_ifs at h with ht
    rw [Option.map_eq_some_iff] at h
    obtain ⟨n, hn, rfl⟩ := h
    obtain ⟨pre, ahead, rfl, rfl, hne, hagain⟩ := countsOnly_groupLength? 1 hn
    refine ⟨t :: pre, ahead, rfl, rfl, ?_, fun other => ?_⟩
    · exact Nat.succ_le_succ (length_pos_iff.mpr hne)
    · rw [cons_append, wholeGroup?, if_pos ht, hagain, Option.map_some]

namespace Read

variable {α β : Type} {H : Tok → Prop} {P : List Token → Prop}
  {Q : List Token → List Token → Prop}

theorem gives_skipThrough {c : Char} {r r' : Reader} {u : Unit} :
    Gives (skipThrough c) r u r' ↔
      ∃ n, lengthThrough? (· == .mark c) r.rest = some n ∧ r' = r.advanceBy n := by
  simp only [skipThrough, gives_bind, gives_get]
  constructor
  · rintro ⟨_, r, ⟨rfl, rfl⟩, h⟩
    cases hlen : lengthThrough? (· == .mark c) r.rest with
    | none => simp [hlen] at h
    | some n =>
      simp only [hlen, gives_advanceBy] at h
      exact ⟨n, rfl, h⟩
  · rintro ⟨n, hlen, rfl⟩
    refine ⟨_, _, ⟨rfl, rfl⟩, ?_⟩
    simp [hlen]

theorem gives_skipGroup {r r' : Reader} {u : Unit} :
    Gives skipGroup r u r' ↔ ∃ n, wholeGroup? r.rest = some n ∧ r' = r.advanceBy n := by
  simp only [skipGroup, gives_bind, gives_get, gives_expectMark]
  constructor
  · rintro ⟨_, _, ⟨hpeek, rfl⟩, _, _, ⟨rfl, rfl⟩, h⟩
    obtain ⟨t, rest, hrest, ht⟩ := r.exists_cons_of_peek (by rw [hpeek]; simp)
    have hadvance := Reader.advance_of_cons hrest
    cases hlen : Reader.groupLength? 1 rest with
    | none => simp [hadvance, hlen] at h
    | some n =>
      refine ⟨n + 1, by rw [hrest, wholeGroup?, if_pos (ht.trans hpeek), hlen, Option.map_some], ?_⟩
      simpa [hadvance, hlen, Reader.advanceBy] using h
  · rintro ⟨n, hlen, rfl⟩
    cases hrest : r.rest with
    | nil => rw [hrest] at hlen; cases hlen
    | cons t rest =>
      rw [hrest, wholeGroup?] at hlen
      split_ifs at hlen with ht
      rw [Option.map_eq_some_iff] at hlen
      obtain ⟨n, hn, rfl⟩ := hlen
      refine ⟨(), _, ⟨by rw [Reader.peek_of_cons hrest, ht], rfl⟩, _, _, ⟨rfl, rfl⟩, ?_⟩
      rw [Reader.rest_advance, hrest, tail_cons, hn]
      simp [Reader.advanceBy]

theorem inner_advanceBy (n : Nat) : Inner (advanceBy n) (advanceBy n) := by
  induction n with
  | zero => exact frames_pure trivial
  | succ n ih =>
    exact inner_advance.bind (fun _ => ih) (fun pre _ _ _ h => h.append pre) fun _ _ _ _ => trivial

theorem advanceBy_two_bind {α : Type} (k : Read α) :
    (do advanceBy 2; k) = (do advance; advance; k) := rfl

/-- A token is taken with the one behind it, which is missing only at the end of the text. -/
theorem final_take_two {t : Tok} (ht : t ≠ .eof) (hpast : looksPast t = false) :
    Frames (· = t) Solid EndView (do advance; advance) (do advance; advance) := by
  rintro r u r' rfl hgives
  obtain rfl : r' = r.advance.advance := by simpa using hgives
  obtain ⟨t, rest, hrest, htok⟩ := r.exists_cons_of_peek ht
  rw [← htok] at hpast
  cases rest with
  | nil =>
    have hadvance : r.advance.advance = { r with rest := [], lastLine := t.place.line } := by
      rw [Reader.advance_of_cons hrest, Reader.advance_of_nil rfl]
    rw [hadvance]
    refine ⟨[t], solid_singleton hpast, hrest, rfl, fun other hother => ?_⟩
    rw [EndView.eq_nil hother]
    simp only [gives_bind, gives_advance]
    exact ⟨(), _, rfl, rfl⟩
  | cons u rest =>
    have hadvance : r.advance.advance = { r with rest := rest, lastLine := u.place.line } := by
      rw [Reader.advance_of_cons hrest, Reader.advance_of_cons rfl]
    rw [hadvance]
    refine ⟨[t, u], solid_of_two_le (by simp), hrest, rfl, fun other _ => ?_⟩
    simp only [gives_bind, gives_advance]
    exact ⟨(), _, rfl, rfl⟩

/-- Skip the tokens that pass a test, which may depend on the line of the one taken last. -/
def skipWhile (p : Nat → Token → Bool) : Read Unit := do
  let r ← get
  advanceBy (r.rest.takeWhile (p r.lastLine)).length

end Read

theorem takeWhile_append_of_head {p : Token → Bool} {ts other : List Token}
    (h : other.head? = (ts.dropWhile p).head?) :
    (ts.takeWhile p ++ other).takeWhile p = ts.takeWhile p := by
  have hnil : other.takeWhile p = [] := by
    cases other with
    | nil => rfl
    | cons t rest =>
      have ht := head?_dropWhile_not p ts
      rw [← h] at ht
      rw [takeWhile_cons_of_neg]
      simpa using ht
  rw [takeWhile_append_of_pos fun _ => mem_takeWhile_imp, hnil, append_nil]

namespace Read

theorem inner_skipWhile {p : Nat → Token → Bool} : Inner (skipWhile p) (skipWhile p) := by
  intro r u r' _ hgives
  simp only [skipWhile, gives_bind, gives_get, gives_advanceBy] at hgives
  obtain ⟨_, r, ⟨rfl, rfl⟩, rfl⟩ := hgives
  refine ⟨r.rest.takeWhile (p r.lastLine), trivial,
    Taken.advanceBy takeWhile_append_dropWhile.symm fun other hother => ?_⟩
  simp only [skipWhile, gives_bind, gives_get, gives_advanceBy]
  refine ⟨_, _, ⟨rfl, rfl⟩, ?_⟩
  rw [Reader.rest_withRest, Reader.lastLine_withRest, takeWhile_append_of_head hother.head?_eq]

theorem skipLine_eq : skipLine = (do advance; skipWhile fun line t => t.place.line == line) := by
  funext r
  change (Except.ok ((), r.advanceBy (Reader.lineLength r.rest)) : Except ReadError _) =
    .ok ((), r.advance.advanceBy
      (r.advance.rest.takeWhile fun t => t.place.line == r.advance.lastLine).length)
  cases hrest : r.rest with
  | nil => rw [Reader.advance_of_nil hrest, hrest, Reader.lineLength, takeWhile_nil]; rfl
  | cons t rest =>
    rw [Reader.lineLength, Nat.add_comm, Reader.advanceBy, Reader.advance_of_cons hrest]

theorem inner_atLineStart : Inner atLineStart atLineStart := by
  intro r b r' _ hgives
  obtain ⟨rfl, rfl⟩ : b = r.atLineStart ∧ r' = r := by simpa [atLineStart, and_comm] using hgives
  refine ⟨[], trivial, rfl, rfl, fun other hother => ?_⟩
  have hsame : (r'.withRest other).atLineStart = r'.atLineStart := by
    rw [Reader.atLineStart, Reader.atLineStart, Reader.place_eq, Reader.place_eq,
      Reader.rest_withRest, hother.head?_eq]
    rfl
  simp [atLineStart, hsame]

theorem looksPast_of_isWordIn {t : Tok} (h : isWordIn groupAttributes t = true) :
    looksPast t = true := by
  cases t with
  | word w =>
    have hmem : w ∈ groupAttributes := by simpa [isWordIn] using h
    simp [looksPast, pastWords, hmem]
  | _ => cases h

/-- The reader with one more anonymous type. -/
def addLiteral (r : Reader) (fields : List Ty) (isPacked : Bool) : Reader :=
  { r with
    literals := r.literals + 1
    module := { r.module with
      structs := r.module.structs ++
        [⟨"literal." ++ toString r.literals, fields, isPacked, false⟩] } }

/-- An anonymous type is an earlier one with the same fields, or it is added under a new name. -/
theorem run_literalStruct (fields : List Ty) (isPacked : Bool) (r : Reader) :
    (∃ s ∈ r.module.structs, s.fields = fields ∧ s.isPacked = isPacked ∧ ∀ ts,
        (literalStruct fields isPacked).run (r.withRest ts) = .ok (.struct s.name, r.withRest ts)) ∨
      ∀ ts, (literalStruct fields isPacked).run (r.withRest ts) =
        .ok (.struct ("literal." ++ toString r.literals),
          (addLiteral r fields isPacked).withRest ts) := by
  cases hknown : r.module.structs.find? fun s =>
      s.name.startsWith "literal." && s.fields == fields && s.isPacked == isPacked with
  | some s =>
    have hkeys := find?_some hknown
    simp only [Bool.and_eq_true, beq_iff_eq] at hkeys
    refine .inl ⟨s, mem_of_find?_eq_some hknown, hkeys.1.2, hkeys.2, fun ts => ?_⟩
    simp only [literalStruct, StateT.run_bind, StateT.run_get, pure_bind, Reader.module_withRest,
      hknown]
    rfl
  | none =>
    refine .inr fun ts => ?_
    simp only [literalStruct, StateT.run_bind, StateT.run_get, pure_bind, Reader.module_withRest,
      hknown]
    rfl

theorem trailing_literalStruct {fields : List Ty} {isPacked : Bool} :
    Trailing (literalStruct fields isPacked) (literalStruct fields isPacked) := by
  apply frames_still plain_nil
  intro r t r' h
  rcases run_literalStruct fields isPacked r with ⟨s, -, -, -, hrun⟩ | hrun
  · cases (hrun r.rest).symm.trans h
    exact ⟨rfl, rfl, hrun⟩
  · cases (hrun r.rest).symm.trans h
    exact ⟨rfl, rfl, hrun⟩

/-- A word that is looked past is no type of integers. -/
theorem looksPast_of_widthOf? {w : String} {bits : Nat} (h : widthOf? w = some bits) :
    looksPast (.word w) = false :=
  not_looksPast_of (p := fun w => (widthOf? w).isSome) (by decide +kernel) (by rw [h]; rfl)

theorem looksPast_of_simpleValue? {ty : Ty} {t : Tok} {v : Value}
    (h : simpleValue? ty t = some v) : looksPast t = false := by
  cases t with
  | word w =>
    rw [simpleValue?] at h
    exact not_looksPast_of (p := fun w => (wordValue? w).isSome)
      (by simp [pastWords, groupAttributes, wordValue?]) (by rw [h]; rfl)
  | mark c => cases h
  | _ => rfl

end Read

end Offload.Compiled
