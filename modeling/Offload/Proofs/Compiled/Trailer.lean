import Offload.Proofs.Compiled.Readers

/-!
# Notes behind an instruction

A note is a comma, an exclamation mark and some more tokens of one line. Behind an instruction that
is the last thing on its line a note on that line is skipped like any other trailer, and the
instruction itself is read as without it.
-/

namespace Offload.Compiled

open List

/-- The token belongs to a trailer whose comma stands on the line. -/
def inTrailer (line : Nat) (t : Token) : Bool := t.place.line == line && !Read.endsTrailer t.tok

/-- A comma, an exclamation mark and what belongs to them, all on one line. -/
def IsNote (line : Nat) (ts : List Token) : Prop :=
  ∃ c b rest, ts = c :: b :: rest ∧ c.tok = .mark ',' ∧ b.tok = .mark '!' ∧ c.place.line = line ∧
    ∀ t ∈ b :: rest, inTrailer line t = true

theorem IsNote.length_pos {line : Nat} {note : List Token} (h : IsNote line note) :
    0 < note.length := by
  obtain ⟨c, b, rest, rfl, -⟩ := h
  simp

/-- No trailer runs into a note. -/
theorem IsNote.not_inTrailer_head {line l : Nat} {note other : List Token} (h : IsNote line note) :
    ∀ t ∈ (note ++ other).head?, inTrailer l t = false := by
  obtain ⟨c, b, rest, rfl, hc, -⟩ := h
  rintro _ ⟨⟩
  rw [inTrailer, hc, Bool.and_eq_false_iff]
  exact .inr rfl

/-! ### Trailers -/

namespace Reader

/-- A trailer is next. -/
def atTrailer (r : Reader) : Bool := r.peek == .mark ',' && Read.startsTrailer (r.peekAt 1)

/-- The state behind the trailer that is next. -/
def pastTrailer (r : Reader) : Reader :=
  r.advance.advanceBy (r.advance.rest.takeWhile (inTrailer r.advance.lastLine)).length

variable {r : Reader} {c : Token} {rest : List Token}

theorem lineAfter_takeWhile (line : Nat) (ts : List Token) :
    lineAfter line (ts.takeWhile (inTrailer line)) = line := by
  induction ts with
  | nil => rfl
  | cons t ts ih =>
    rw [takeWhile_cons]
    split_ifs with ht
    · have hline : t.place.line = line := by
        rw [inTrailer, Bool.and_eq_true, beq_iff_eq] at ht
        exact ht.1
      rw [lineAfter, foldl_cons, hline]
      exact ih
    · rfl

/-- All of a trailer is on the line of its comma. -/
theorem pastTrailer_of_cons (h : r.rest = c :: rest) : r.pastTrailer = { r with
      rest := rest.dropWhile (inTrailer c.place.line), lastLine := c.place.line } := by
  rw [pastTrailer, advance_of_cons h]
  rw [advanceBy_length takeWhile_append_dropWhile.symm, lineAfter_takeWhile]

/-- A trailer ends just as well before any other token that does not belong to it. -/
theorem pastTrailer_withRest (h : r.rest = c :: rest) {other : List Token}
    (hother : ∀ t ∈ other.head?, inTrailer c.place.line t = false) :
    (r.withRest (c :: (rest.takeWhile (inTrailer c.place.line) ++ other))).pastTrailer =
      r.pastTrailer.withRest other := by
  have hstop : other.dropWhile (inTrailer c.place.line) = other := by
    cases other with
    | nil => rfl
    | cons t other => simp [hother t rfl]
  rw [pastTrailer_of_cons h, pastTrailer_of_cons rfl,
    dropWhile_append_of_pos fun _ => mem_takeWhile_imp, hstop]
  rfl

theorem exists_cons_of_atTrailer (h : r.atTrailer = true) :
    ∃ c t rest, r.rest = c :: t :: rest ∧ c.tok = .mark ',' ∧ Read.startsTrailer t.tok = true := by
  rw [atTrailer, Bool.and_eq_true, beq_iff_eq] at h
  obtain ⟨c, rest, hrest, hc⟩ := r.exists_cons_of_peek (by rw [h.1]; simp)
  cases rest with
  | nil => simp [peekAt, hrest, Read.startsTrailer] at h
  | cons t rest => exact ⟨c, t, rest, hrest, hc.trans h.1, by simpa [peekAt, hrest] using h.2⟩

theorem atTrailer_of_cons {t : Token} (h : r.rest = c :: t :: rest) (hc : c.tok = .mark ',') :
    r.atTrailer = Read.startsTrailer t.tok := by
  rw [atTrailer, peek_of_cons h, hc, peekAt, h]
  simp

theorem atTrailer_of_startsTrailer (h : Read.startsTrailer r.peek = true) :
    r.atTrailer = false := by
  rw [atTrailer, Bool.and_eq_false_iff]
  left
  rw [beq_eq_false_iff_ne]
  intro hcomma
  rw [hcomma] at h
  cases h

end Reader

namespace Read

/-- One trailer, if the next token starts one. -/
def trailer : Read Bool := do
  if ← looking (· == .mark ',') startsTrailer then
    advance
    skipWhile inTrailer
    return true
  return false

theorem skipTrailers_eq : skipTrailers = repeatWhile trailer := rfl

section

variable {r r' e : Reader} {b : Bool} {u : Unit} {note other : List Token} {n m : Nat}

theorem gives_trailer :
    Gives trailer r b r' ↔ b = r.atTrailer ∧ r' = if r.atTrailer then r.pastTrailer else r := by
  rw [trailer, gives_looking_bind]
  change Gives (if r.atTrailer = true then _ else _) r b r' ↔ _
  split_ifs with h
  · simp [skipWhile, h, and_comm, Reader.pastTrailer]
  · simp [h]

theorem gives_rounds_trailer : Gives (repeatWhile.rounds trailer (n + 1)) r u r' ↔
    if r.atTrailer then Gives (repeatWhile.rounds trailer n) r.pastTrailer u r' else r' = r := by
  rw [repeatWhile.rounds]
  simp only [gives_bind, gives_trailer]
  constructor
  · rintro ⟨_, _, ⟨rfl, rfl⟩, h⟩
    split_ifs with hat
    · simpa [hat] using h
    · simpa [hat] using h
  · intro h
    refine ⟨_, _, ⟨rfl, rfl⟩, ?_⟩
    split_ifs at h ⊢ with hat
    · exact h
    · exact gives_pure.mpr ⟨rfl, h⟩

theorem eq_of_rounds_trailer (h : Gives (repeatWhile.rounds trailer n) r u e)
    (hat : r.atTrailer = false) : e = r := by
  cases n with
  | zero => exact absurd h not_gives_fail
  | succ n => simpa [gives_rounds_trailer, hat] using h

/-- A note on the line of the token taken last is one trailer. -/
theorem gives_rounds_noted_head (hstart : e.atLineStart = true) (hnote : IsNote e.lastLine note)
    (hother : SameView e.rest other) :
    Gives (repeatWhile.rounds trailer (n + 1)) (e.withRest (note ++ other)) u r' ↔
      Gives (repeatWhile.rounds trailer n) (e.withRest other) u r' := by
  obtain ⟨c, b, rest, rfl, hc, hb, hline, hall⟩ := hnote
  have hstop : other.dropWhile (inTrailer c.place.line) = other := by
    cases other with
    | nil => rfl
    | cons t other =>
      have hplace : e.place = t.place := by
        rw [Reader.place_eq, ← hother.head?_eq]
        rfl
      have hne : t.place.line ≠ e.lastLine := by
        rw [Reader.atLineStart, hplace, Bool.and_eq_true, bne_iff_ne, bne_iff_ne] at hstart
        exact hstart.2
      rw [dropWhile_cons_of_neg]
      simp [inTrailer, hline, hne]
  have hpast : (e.withRest (c :: b :: rest ++ other)).pastTrailer = e.withRest other := by
    rw [Reader.pastTrailer_of_cons rfl]
    change { e with rest := (b :: rest ++ other).dropWhile _, lastLine := _ } = e.withRest other
    rw [dropWhile_append_of_pos (by rwa [hline]), hstop, hline]
    rfl
  rw [gives_rounds_trailer, Reader.atTrailer_of_cons rfl hc, hb, hpast]
  rfl

/-- Trailers are taken again before a note on their last line, and the note with them. -/
theorem gives_rounds_noted (h : Gives (repeatWhile.rounds trailer n) r u e)
    (hpeek : startsTrailer e.peek = false) (hstart : e.atLineStart = true)
    (hnote : IsNote e.lastLine note) (hother : SameView e.rest other) :
    ∃ trail, r.rest = trail ++ e.rest ∧ (trail = [] ∨ 2 ≤ trail.length) ∧ ∀ m, n < m →
      Gives (repeatWhile.rounds trailer m) (r.withRest (trail ++ (note ++ other))) u
        (e.withRest other) := by
  induction n generalizing r with
  | zero => exact absurd h not_gives_fail
  | succ n ih =>
    rw [gives_rounds_trailer] at h
    split_ifs at h with hat
    · obtain ⟨c, t, rest, hrest, hc, ht⟩ := Reader.exists_cons_of_atTrailer hat
      obtain ⟨trail, htrail, -, hagain⟩ := ih h
      have hpast := Reader.pastTrailer_of_cons hrest
      -- Without a token on its line, the comma alone would be taken, and no item follows then.
      have hsecond : inTrailer c.place.line t = true := by
        by_contra hline
        have hdrop : (t :: rest).dropWhile (inTrailer c.place.line) = t :: rest :=
          dropWhile_cons_of_neg hline
        rw [hdrop] at hpast
        have hstarts : startsTrailer r.pastTrailer.peek = true := by
          rw [Reader.peek_of_cons (congrArg Reader.rest hpast), ht]
        rw [eq_of_rounds_trailer h (Reader.atTrailer_of_startsTrailer hstarts), hstarts] at hpeek
        cases hpeek
      have hafter : rest.dropWhile (inTrailer c.place.line) = trail ++ e.rest := by
        rw [← htrail, hpast, dropWhile_cons_of_pos hsecond]
      refine ⟨c :: t :: (rest.takeWhile (inTrailer c.place.line) ++ trail), ?_, .inr (by simp),
        fun m hm => ?_⟩
      · rw [hrest, cons_append, cons_append, append_assoc, ← hafter, takeWhile_append_dropWhile]
      · obtain ⟨m, rfl⟩ := exists_eq_succ hm
        rw [gives_rounds_trailer, Reader.atTrailer_of_cons rfl hc, if_pos ht]
        have hsplit : c :: t :: (rest.takeWhile (inTrailer c.place.line) ++ trail) ++
            (note ++ other) = c :: ((t :: rest).takeWhile (inTrailer c.place.line) ++
              (trail ++ (note ++ other))) := by
          rw [takeWhile_cons_of_pos hsecond]
          simp
        rw [hsplit, Reader.pastTrailer_withRest hrest]
        · exact hagain m (Nat.lt_of_succ_lt_succ hm)
        · cases trail with
          | nil => exact hnote.not_inTrailer_head
          | cons x trail =>
            rintro _ ⟨⟩
            have hx := head?_dropWhile_not (inTrailer c.place.line) rest
            rw [hafter] at hx
            simpa using hx
    · obtain rfl := h
      refine ⟨[], rfl, .inl rfl, fun m hm => ?_⟩
      obtain ⟨m, rfl⟩ : ∃ k, m = k + 1 + 1 := ⟨m - 2, by omega⟩
      rw [nil_append, gives_rounds_noted_head hstart hnote hother, gives_rounds_trailer]
      have hsame : (e.withRest other).atTrailer = e.atTrailer :=
        looking_of_sameView (v := (· == .mark ',')) (w := startsTrailer)
          (by simp +contextual [looksPast]) hother
      rw [hsame, if_neg hat]

theorem gives_skipTrailers_noted (h : Gives skipTrailers r u e)
    (hpeek : startsTrailer e.peek = false) (hstart : e.atLineStart = true)
    (hnote : IsNote e.lastLine note) (hother : SameView e.rest other) :
    ∃ trail, r.rest = trail ++ e.rest ∧ (trail = [] ∨ 2 ≤ trail.length) ∧
      Gives skipTrailers (r.withRest (trail ++ (note ++ other))) u (e.withRest other) := by
  rw [skipTrailers_eq, gives_repeatWhile] at h
  obtain ⟨trail, hrest, htrail, hagain⟩ := gives_rounds_noted h hpeek hstart hnote hother
  refine ⟨trail, hrest, htrail, gives_repeatWhile.mpr (hagain _ ?_)⟩
  have hlength := hother.2
  have hpos := hnote.length_pos
  simp only [Reader.rest_withRest, hrest, length_append]
  omega

/-! ### An item and its note -/

/-- An instruction or terminator with its trailers is read again before what looks the same, and
before a note on its last line if nothing else is on that line. -/
theorem gives_item_noted {block block' : BasicBlock} {m : Reader}
    (hitem : Gives (blockItem block) r block' m) (htrailers : Gives skipTrailers m u e)
    (hpeek : startsTrailer e.peek = false) (hne : e.rest ≠ [])
    (hnote : note = [] ∨ e.atLineStart = true ∧ IsNote e.lastLine note)
    (hother : SameView e.rest other) :
    ∃ pre, pre ≠ [] ∧ r.rest = pre ++ e.rest ∧ e.lastLine = lineAfter r.lastLine pre ∧
      ∃ m', Gives (blockItem block) (r.withRest (pre ++ (note ++ other))) block' m' ∧
        Gives skipTrailers m' u (e.withRest other) := by
  obtain ⟨pre, hpre, hfirst⟩ := (hereditary_true.blockItem (n := 0)).frames trivial hitem
  obtain ⟨trail, -, hsecond⟩ := (hereditary_true.skipTrailers (n := 0)).frames trivial htrailers
  refine ⟨pre ++ trail, append_ne_nil_of_left_ne_nil hpre.1 _, ?_, ?_, ?_⟩
  · rw [hfirst.rest_eq, hsecond.rest_eq, append_assoc]
  · rw [hsecond.lastLine_eq, hfirst.lastLine_eq, lineAfter_append]
  rw [append_assoc]
  rcases hnote with rfl | ⟨hstart, hnote⟩
  · have hsame : SameView m.rest (trail ++ ([] ++ other)) := by
      rw [hsecond.rest_eq]
      exact hother.append trail
    exact ⟨_, hfirst.again _ (.inl hsame), hsecond.again other hother⟩
  · obtain ⟨trail', hrest, htrail, hagain⟩ :=
      gives_skipTrailers_noted htrailers hpeek hstart hnote hother
    obtain rfl : trail = trail' := append_cancel_right (hsecond.rest_eq.symm.trans hrest)
    refine ⟨_, hfirst.again _ ?_, hagain⟩
    have hlength : m.rest.length ≤ (trail ++ (note ++ other)).length := by
      have := hother.2
      simp only [hrest, length_append]
      omega
    rcases htrail with rfl | htwo
    · obtain ⟨c, b, rest, rfl, hc, hb, -⟩ := hnote
      refine .inr ⟨?_, hlength, c, b, rest ++ other, rfl, hc, hb⟩
      rw [hrest]
      exact hne
    · refine .inl ⟨?_, hlength⟩
      rw [hrest]
      exact view_append (solid_of_two_le htwo) _ _

end

end Read

end Offload.Compiled
