import Offload.Proofs.Compiled.Readers

/-!
# Relations between states of a reading

A relation between the states before and after a reader, if it holds along the steps that make up
the reader, holds along the whole of it.
-/

namespace Offload.Compiled

open Read

/-- Whenever the reader succeeds, the states before and after are related. -/
def Keeps {α : Type} (R : Reader → Reader → Prop) (p : Read α) : Prop :=
  ∀ ⦃r a r'⦄, Gives p r a r' → R r r'

/-- The relation holds along the steps that make up a reading, the definitions of struct types and
the end of a function left out. -/
structure Stable (R : Reader → Reader → Prop) : Prop where
  trans : ∀ {r s t}, R r s → R s t → R r t
  still : ∀ {r r'}, r'.module.structs = r.module.structs →
    r'.module.functions = r.module.functions → r'.literals = r.literals → R r r'
  literal : ∀ fields isPacked, Keeps R (Read.literalStruct fields isPacked)

namespace Reader

variable {r : Reader}

@[simp] theorem module_advance (r : Reader) : r.advance.module = r.module := by
  unfold advance
  split <;> rfl

@[simp] theorem literals_advance (r : Reader) : r.advance.literals = r.literals := by
  unfold advance
  split <;> rfl

@[simp] theorem module_advanceBy (n : Nat) (r : Reader) : (r.advanceBy n).module = r.module := by
  induction n generalizing r with
  | zero => rfl
  | succ n ih => rw [advanceBy, ih, module_advance]

@[simp] theorem literals_advanceBy (n : Nat) (r : Reader) :
    (r.advanceBy n).literals = r.literals := by
  induction n generalizing r with
  | zero => rfl
  | succ n ih => rw [advanceBy, ih, literals_advance]

end Reader

/-- Whenever the reader succeeds from this state, the states are related. -/
def KeepsAt (R : Reader → Reader → Prop) (α : Type) (r : Reader) (p : Read α) : Prop :=
  ∀ ⦃a r'⦄, Gives p r a r' → R r r'

theorem Stable.keeps {R : Reader → Reader → Prop} (h : Stable R) :
    Hereditary (fun _ => True) (KeepsAt R) where
  pureAt a r b r' hgives := by
    obtain ⟨-, rfl⟩ := gives_pure.mp hgives
    exact h.still rfl rfl rfl
  bindAt hp hf b r' hgives := by
    obtain ⟨a, m, hfirst, hsecond⟩ := gives_bind.mp hgives
    exact h.trans (hp hfirst) (hf a m hfirst hsecond)
  getAt := fun {r} s r' hgives => by
    obtain ⟨-, rfl⟩ := gives_get.mp hgives
    exact h.still rfl rfl rfl
  placeAt hp := hp trivial
  failAt _ _ _ _ hgives := absurd hgives not_gives_failAt
  takeAt n r u r' hgives := by
    obtain rfl := gives_advanceBy.mp hgives
    exact h.still (by simp) (by simp) (by simp)
  literalAt fields isPacked r a r' hgives := h.literal fields isPacked hgives
  updateAt hstructs hfunctions u r' hgives := by
    obtain rfl := gives_modify.mp hgives
    exact h.still (hstructs _) (hfunctions _) rfl

theorem Built.keeps {R : Reader → Reader → Prop} {H : Tok → Prop} {g : Grade} {α : Type}
    {p q : Read α} {r r' : Reader} {a : α} (hp : Built (KeepsAt R) H g (r.rest.length + 1) p q)
    (hr : H r.peek) (hgives : Gives p r a r') : R r r' :=
  hp.holds hr (Nat.lt_succ_self _) hgives

end Offload.Compiled
