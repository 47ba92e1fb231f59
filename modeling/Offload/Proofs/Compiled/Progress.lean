import Offload.Proofs.Compiled.Position

/-!
# Progress of a reading

The loops of the reader count down from the number of tokens left, although taking a token at the
end of the text takes nothing. A round that goes on has taken a token, so the count is never used
up: every text is read to its end or is refused for what is in it.
-/

namespace Offload.Compiled

open Read

variable {α ι : Type}

/-! ### Tokens -/

theorem scanTok_ne_stalled {b : UInt8} {rest : List UInt8} {flaw : ReadFlaw}
    (h : scanTok b rest = .error flaw) : flaw ≠ .stalled := by
  rintro rfl
  simp only [scanTok, bind, Except.bind, pure, Except.pure] at h
  grind [scanName.eq_def, scanString, scanHex, scanNumber, labelOr.eq_def]

/-- Every step takes a byte, so any bound beyond the length of the text will do. -/
theorem tokensFrom_congr {fuel fuel' : Nat} {place : Place} {bs : List UInt8}
    (h : bs.length < fuel) (h' : bs.length < fuel') :
    tokensFrom fuel place bs = tokensFrom fuel' place bs := by
  induction fuel generalizing fuel' place bs with
  | zero => omega
  | succ fuel ih =>
    obtain ⟨fuel', rfl⟩ := exists_eq_succ h'
    cases bs with
    | nil => rfl
    | cons b rest =>
      have hless (place : Place) {n : Nat} (hn : 0 < n) :
          tokensFrom fuel place ((b :: rest).drop n) =
            tokensFrom fuel' place ((b :: rest).drop n) := by
        rw [List.length_cons] at h h'
        apply ih <;> rw [List.length_drop, List.length_cons] <;> omega
      rw [tokensFrom, tokensFrom]
      split_ifs with hnewline hblank hcomment
      · exact hless _ Nat.one_pos
      · exact hless _ Nat.one_pos
      · have hb : (b != Ascii.newline) = true := by simpa using hnewline
        apply hless
        simp [hb]
      · cases hscan : scanTok b rest with
        | error flaw => rfl
        | ok result =>
          obtain ⟨body, _, -, hlength, -⟩ := scanTok_piece hscan
          simp only
          rw [hless _ (by omega)]

theorem tokensFrom_ne_stalled {fuel : Nat} {place : Place} {bs : List UInt8} {e : ReadError}
    (h : tokensFrom fuel place bs = .error e) : e.flaw ≠ .stalled := by
  induction fuel generalizing place bs with
  | zero => cases h
  | succ fuel ih =>
    cases bs with
    | nil => cases h
    | cons b rest =>
      rw [tokensFrom] at h
      split_ifs at h
      · exact ih h
      · exact ih h
      · exact ih h
      · cases hscan : scanTok b rest with
        | error flaw =>
          rw [hscan] at h
          cases h
          exact scanTok_ne_stalled hscan
        | ok result =>
          rw [hscan] at h
          simp only [bind, Except.bind, pure, Except.pure] at h
          split at h
          case h_1 hothers =>
            cases h
            exact ih hothers
          case h_2 => cases h

/-! ### Rounds of a loop -/

/-- With room for one round only, and with fewer than `n` tokens left, a loop that would go on fails
for lack of progress, at the place where the next round would start. That is a later token than the
one where this round started, or the end of the text if there was a token to start with. -/
def Advances (n : Nat) (loop : Nat → ι → Read α) : Prop :=
  ∀ ⦃tt k r e⦄ i, r.Took tt k → r.rest.length < n → (loop 1 i).run r = .error e →
    e.flaw = .stalled → ∃ k', k < k' ∧ k' ≤ tt.tokens.length ∧ e.place = tt.placeAt k'

theorem reads_stalled (tt : TokenText) (g : Grade) (n : Nat) :
    Reads (StaysIn tt n) g n (fail .stalled : Read α) := by
  refine ⟨frames_fail, fun r _ hr k htook =>
    ⟨fun a r' hgives => absurd hgives not_gives_fail, fun e herror => ?_⟩⟩
  cases herror
  refine ⟨k, htook.place_eq, fun _ => ?_⟩
  rw [htook.rest, List.length_drop] at hr
  exact hr

theorem advances_of_reads {n : Nat} {g : Grade} {loop : Nat → ι → Read α}
    (h : ∀ tt m, m < n → ∀ i, Reads (StaysIn tt m) g (m + 1) (loop 1 i)) : Advances n loop := by
  intro tt k r e i htook hlt herror hstalled
  obtain ⟨k', hplace, hless⟩ :=
    ((h tt _ hlt i).holds trivial (Nat.lt_succ_self r.rest.length) k htook).2 herror
  have hk' := hless hstalled
  rw [htook.rest, List.length_drop] at hk'
  refine ⟨min k' tt.tokens.length, by omega, Nat.min_le_right _ _, ?_⟩
  rcases Nat.le_total k' tt.tokens.length with hle | hge
  · rw [Nat.min_eq_left hle, hplace]
  · rw [Nat.min_eq_right hge, hplace, TokenText.placeAt, TokenText.placeAt,
      List.getElem?_eq_none hge, List.getElem?_eq_none le_rfl]

theorem Loop.advances {n : Nat} {g : Grade} {loop : Nat → ι → Read α}
    (h : ∀ tt m, Loop (StaysIn tt m) g loop) : Advances n loop := by
  apply advances_of_reads
  intro tt m _
  apply (h tt m).succ
  intro i
  rw [(h tt m).zero]
  apply reads_stalled

theorem Steps.advances {n : Nat} {g : Grade} {step : Read Bool}
    (h : ∀ tt m, Steps (StaysIn tt m) g step) (hg : g.Takes []) :
    Advances n fun fuel (_ : Unit) => repeatWhile.rounds step fuel :=
  Loop.advances fun tt m => (StaysIn.hereditary tt m).rounds (h tt m) hg

theorem Repeats.advances {p : Read Unit} {g : Grade} (h : Repeats g p) (hg : g.Takes []) (n : Nat) :
    ∃ step, p = repeatWhile step ∧
      Advances n fun fuel (_ : Unit) => repeatWhile.rounds step fuel := by
  obtain ⟨step, rfl, hstep⟩ := h
  exact ⟨step, rfl, Steps.advances (fun tt m => hstep (StaysIn.hereditary tt m)) hg⟩

theorem advances_items {n : Nat} {item : Read α}
    (hitem : ∀ tt m, m < n → Reads (StaysIn tt m) .final (m + 1) item) (close : Char) :
    Advances n fun fuel (_ : Unit) => listUntil.items close item fuel := by
  refine advances_of_reads (g := .inner) fun tt m hm _ => ?_
  have h := StaysIn.hereditary tt m
  exact h.bind (hitem tt m hm).inner fun _ => h.bind h.eat fun _ => .ite (h.pure _)
    (h.taking rfl h.expectMark fun _ => h.bind (reads_stalled tt _ m) fun _ => h.pure _)

end Offload.Compiled
