import Offload.Compiled.ReadModule
import Offload.Proofs.Outcome

/-!
# Steps of the reader

What a step of the reader that succeeds has seen and taken. Reading on from a state is a matter of
the tokens that are left, so each step is described by them.
-/

namespace Offload.Compiled

/-! ### Taking tokens -/

namespace Reader

variable {r : Reader} {t : Token} {rest : List Token} {n : Nat}

theorem advance_of_cons (h : r.rest = t :: rest) :
    r.advance = { r with rest := rest, lastLine := t.place.line } := by
  rw [advance, h]

theorem advance_of_nil (h : r.rest = []) : r.advance = r := by rw [advance, h]

theorem rest_advance (r : Reader) : r.advance.rest = r.rest.tail := by
  unfold advance
  split <;> simp_all

theorem rest_advanceBy (n : Nat) (r : Reader) : (r.advanceBy n).rest = r.rest.drop n := by
  induction n generalizing r with
  | zero => rfl
  | succ n ih => rw [advanceBy, ih, rest_advance, List.drop_tail]

theorem advanceBy_add (m n : Nat) (r : Reader) :
    r.advanceBy (m + n) = (r.advanceBy m).advanceBy n := by
  induction m generalizing r with
  | zero => rw [Nat.zero_add, advanceBy]
  | succ m ih => rw [Nat.add_right_comm, advanceBy, ih, advanceBy]

theorem peek_of_cons (h : r.rest = t :: rest) : r.peek = t.tok := by
  simp [peek, peekAt, h]

theorem peek_of_nil (h : r.rest = []) : r.peek = .eof := by simp [peek, peekAt, h]

end Reader

/-! ### Looking and taking -/

namespace Read

variable {r r' : Reader} {α : Type} {a : α} {b : Bool} {u : Unit} {t : Tok} {w : String}

@[simp] theorem gives_peek : Gives peek r t r' ↔ t = r.peek ∧ r' = r := by
  simp [peek, and_comm]

@[simp] theorem gives_peekAt {n : Nat} : Gives (peekAt n) r t r' ↔ t = r.peekAt n ∧ r' = r := by
  simp [peekAt, and_comm]

@[simp] theorem gives_advance : Gives advance r u r' ↔ r' = r.advance := gives_modify

@[simp] theorem gives_advanceBy {n : Nat} :
    Gives (advanceBy n) r u r' ↔ r' = r.advanceBy n := gives_modify

@[simp] theorem not_gives_failAt {place : Place} {flaw : ReadFlaw} :
    ¬ Gives (failAt place flaw : Read α) r a r' := not_gives_throw

@[simp] theorem not_gives_fail {flaw : ReadFlaw} : ¬ Gives (fail flaw : Read α) r a r' := by
  simp [fail]

@[simp] theorem not_gives_unexpected {expected : Expected} :
    ¬ Gives (unexpected expected : Read α) r a r' := by
  simp [unexpected]

@[simp] theorem gives_atWord : Gives (atWord w) r b r' ↔ b = (r.peek == .word w) ∧ r' = r := by
  simp [atWord, and_comm]

/-- The token is one of the words. -/
def isWordIn (ws : List String) : Tok → Bool
  | .word w => ws.contains w
  | _ => false

@[simp] theorem gives_atWordIn {ws : List String} :
    Gives (atWordIn ws) r b r' ↔ b = isWordIn ws r.peek ∧ r' = r := by
  simp only [atWordIn, gives_bind, gives_peek]
  constructor
  · rintro ⟨t, m, ⟨rfl, rfl⟩, h⟩
    split at h
    · rename_i hpeek
      simpa [hpeek, isWordIn] using h
    · rename_i hpeek
      have hnone : isWordIn ws m.peek = false := by
        cases hm : m.peek with
        | word w => exact absurd hm (hpeek w)
        | _ => rfl
      simpa [hnone] using h
  · rintro ⟨rfl, rfl⟩
    refine ⟨_, _, ⟨rfl, rfl⟩, ?_⟩
    split
    · rename_i hpeek
      simp [hpeek, isWordIn]
    · rename_i hpeek
      cases hm : r'.peek with
      | word w => exact absurd hm (hpeek w)
      | _ => simp [isWordIn]

@[simp] theorem gives_eat :
    Gives (eat t) r b r' ↔
      (r.peek = t ∧ b = true ∧ r' = r.advance) ∨ (r.peek ≠ t ∧ b = false ∧ r' = r) := by
  simp only [eat, gives_bind, gives_peek]
  constructor
  · rintro ⟨_, _, ⟨rfl, rfl⟩, h⟩
    split_ifs at h with hpeek
    · simp only [gives_bind, gives_advance, gives_pure] at h
      obtain ⟨_, _, rfl, rfl, rfl⟩ := h
      exact .inl ⟨by simpa using hpeek, rfl, rfl⟩
    · obtain ⟨rfl, rfl⟩ := gives_pure.mp h
      exact .inr ⟨by simpa using hpeek, rfl, rfl⟩
  · rintro (⟨hpeek, rfl, rfl⟩ | ⟨hpeek, rfl, rfl⟩)
    · refine ⟨_, _, ⟨rfl, rfl⟩, ?_⟩
      simp [hpeek]
    · refine ⟨_, _, ⟨rfl, rfl⟩, ?_⟩
      simp [hpeek]

@[simp] theorem gives_eatMark {c : Char} :
    Gives (eatMark c) r b r' ↔
      (r.peek = .mark c ∧ b = true ∧ r' = r.advance) ∨
        (r.peek ≠ .mark c ∧ b = false ∧ r' = r) := gives_eat

@[simp] theorem gives_eatWord :
    Gives (eatWord w) r b r' ↔
      (r.peek = .word w ∧ b = true ∧ r' = r.advance) ∨
        (r.peek ≠ .word w ∧ b = false ∧ r' = r) := gives_eat

theorem gives_expect {e : Expected} :
    Gives (do if !(← eat t) then unexpected e) r u r' ↔ r.peek = t ∧ r' = r.advance := by
  simp only [gives_bind, gives_eat]
  constructor
  · rintro ⟨b, m, ⟨hpeek, rfl, rfl⟩ | ⟨hpeek, rfl, rfl⟩, h⟩
    · exact ⟨hpeek, (gives_pure.mp h).2⟩
    · exact absurd h not_gives_unexpected
  · rintro ⟨hpeek, rfl⟩
    exact ⟨true, _, .inl ⟨hpeek, rfl, rfl⟩, by simp⟩

@[simp] theorem gives_expectMark {c : Char} :
    Gives (expectMark c) r u r' ↔ r.peek = .mark c ∧ r' = r.advance := gives_expect

@[simp] theorem gives_expectWord :
    Gives (expectWord w) r u r' ↔ r.peek = .word w ∧ r' = r.advance := gives_expect

@[simp] theorem gives_next : Gives next r t r' ↔ t = r.peek ∧ r' = r.advance := by
  simp only [next, gives_bind, gives_peek, gives_advance, gives_pure]
  constructor
  · rintro ⟨_, _, ⟨rfl, rfl⟩, _, _, rfl, rfl, rfl⟩
    exact ⟨rfl, rfl⟩
  · rintro ⟨rfl, rfl⟩
    exact ⟨_, _, ⟨rfl, rfl⟩, (), _, rfl, rfl, rfl⟩

@[simp] theorem gives_eatWordIn {ws : List String} :
    Gives (eatWordIn ws) r b r' ↔
      (isWordIn ws r.peek = true ∧ b = true ∧ r' = r.advance) ∨
        (isWordIn ws r.peek = false ∧ b = false ∧ r' = r) := by
  simp only [eatWordIn, gives_bind, gives_atWordIn]
  constructor
  · rintro ⟨_, _, ⟨rfl, rfl⟩, h⟩
    split_ifs at h with hword
    · simp only [gives_bind, gives_advance, gives_pure] at h
      obtain ⟨_, _, rfl, rfl, rfl⟩ := h
      exact .inl ⟨hword, rfl, rfl⟩
    · obtain ⟨rfl, rfl⟩ := gives_pure.mp h
      exact .inr ⟨by simpa using hword, rfl, rfl⟩
  · rintro (⟨hword, rfl, rfl⟩ | ⟨hword, rfl, rfl⟩)
    · exact ⟨_, _, ⟨rfl, rfl⟩, by simp [hword]⟩
    · exact ⟨_, _, ⟨rfl, rfl⟩, by simp [hword]⟩

theorem gives_repeatWhile {step : Read Bool} : Gives (repeatWhile step) r u r' ↔
    Gives (repeatWhile.rounds step (r.rest.length + 1)) r u r' := by
  rw [repeatWhile]
  simp

end Read

theorem readModule_ok {name text : String} {m : Module} : readModule name text = .ok m ↔
    ∃ tokens r, tokenizeModule text = .ok tokens ∧ m = r.module ∧
      Gives (Read.repeatWhile.rounds Read.entity (tokens.tokens.length + 1))
        (.ofText name tokens) () r := by
  constructor
  · intro h
    obtain ⟨tokens, htokens, hrest⟩ := except_bind_ok.mp h
    obtain ⟨⟨_, r⟩, hrun, heq⟩ := except_bind_ok.mp hrest
    cases heq
    exact ⟨tokens, r, htokens, rfl, Read.gives_repeatWhile.mp hrun⟩
  · rintro ⟨tokens, r, htokens, rfl, hrounds⟩
    have hrun := Read.gives_repeatWhile.mpr hrounds
    exact except_bind_ok.mpr ⟨tokens, htokens, except_bind_ok.mpr ⟨((), r), hrun, rfl⟩⟩

end Offload.Compiled
