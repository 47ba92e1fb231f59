import Offload.Proofs.Source.Bracket
import Offload.Source.Parse

/-!
# Moves of the parser's cursor

What a step of the parser that succeeds finds at the cursor, and where it leaves it.
-/

namespace Offload.Source

open TokenStream

namespace Parse

variable {ts : TokenStream} {s s' : ParseState}

/-! ### Looking at the cursor -/

/-- A part that only reads the stream leaves the state as it is. -/
theorem gives_read {α : Type} {x : Except Fault α} {a : α} :
    Gives (liftM x : Parse α) s a s' ↔ x = .ok a ∧ s = s' := by
  rw [gives_liftM, eq_comm (a := s')]

theorem gives_cursor {i : Nat} : Gives cursor s i s' ↔ i = s.cursor ∧ s = s' := by
  simp only [cursor, gives_bind, gives_get, gives_pure]
  constructor
  · rintro ⟨_, _, ⟨rfl, rfl⟩, rfl, rfl⟩
    exact ⟨rfl, rfl⟩
  · rintro ⟨rfl, rfl⟩
    exact ⟨_, _, ⟨rfl, rfl⟩, rfl, rfl⟩

@[simp] theorem gives_moveTo {i : Nat} {u : Unit} :
    Gives (moveTo i) s u s' ↔ s' = { s with cursor := i } := gives_modify

@[simp] theorem not_gives_fault {α : Type} {f : Fault} {a : α} :
    ¬ Gives (Parse.fault f : Parse α) s a s' := not_gives_throw

theorem gives_peek {l : Lexeme} (h : Gives (peek ts) s l s') :
    l = ts.lexeme s.cursor ∧ s = s' ∧ s.cursor < ts.size := by
  simp only [peek, gives_bind, gives_cursor, gives_read, gives_pure] at h
  obtain ⟨_, _, ⟨rfl, rfl⟩, t, _, ⟨ht, rfl⟩, rfl, rfl⟩ := h
  obtain ⟨hlt, hlexeme⟩ := lexeme_of_token ht
  exact ⟨hlexeme.symm, rfl, hlt⟩

theorem gives_at {l : Lexeme} {b : Bool} (h : Gives (at_ ts l) s b s') :
    b = (ts.lexeme s.cursor == l) ∧ s = s' := by
  simp only [at_, gives_bind, gives_pure] at h
  obtain ⟨_, _, hpeek, rfl, rfl⟩ := h
  obtain ⟨rfl, rfl, -⟩ := gives_peek hpeek
  exact ⟨rfl, rfl⟩

theorem gives_atSymbol {x : Symbol} {b : Bool} (h : Gives (atSymbol ts x) s b s') :
    b = (ts.lexeme s.cursor == .symbol x) ∧ s = s' := gives_at h

/-! ### Single steps -/

theorem gives_advance {t : Token} (h : Gives (advance ts) s t s') :
    ts.token s.cursor = .ok t ∧
      s'.cursor = if s.cursor + 1 < ts.size then s.cursor + 1 else s.cursor := by
  simp only [advance, gives_bind, gives_cursor, gives_read] at h
  obtain ⟨_, _, ⟨rfl, rfl⟩, t, _, ⟨ht, rfl⟩, h⟩ := h
  split_ifs at h ⊢ with hlt
  · simp only [gives_bind, gives_moveTo, gives_pure] at h
    obtain ⟨_, _, rfl, rfl, rfl⟩ := h
    exact ⟨ht, rfl⟩
  · simp only [gives_pure] at h
    obtain ⟨rfl, rfl⟩ := h
    exact ⟨ht, rfl⟩

/-- A token other than `eof` is left behind. -/
theorem cursor_advance (hend : ts.Ended) {t : Token} (h : Gives (advance ts) s t s')
    (hne : ts.lexeme s.cursor ≠ .eof) : s'.cursor = s.cursor + 1 := by
  rw [(gives_advance h).2, if_pos (hend.lt_of_lexeme_ne hne)]

end Parse

end Offload.Source
