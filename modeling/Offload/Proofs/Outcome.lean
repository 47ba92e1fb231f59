import Mathlib.Data.List.Forall2

/-!
# Outcomes of runs

A computation with a state and errors, seen through the runs that succeed: each step of a `do` block
that succeeds has succeeded, and its state is the one the next step starts from. The errors that it
can end with are those of its steps.
-/

namespace Offload

open List

/-- Fuel that is more than some number is not used up. -/
theorem exists_eq_succ {n fuel : Nat} (h : n < fuel) : ∃ k, fuel = k + 1 :=
  Nat.exists_eq_add_one_of_ne_zero (Nat.ne_zero_of_lt h)

section

variable {σ ε α β : Type} {s s' : σ} {f : α → StateT σ (Except ε) β} {x : StateT σ (Except ε) α}
  {b : β} {a : α} {e : ε}

/-- The computation succeeds from a state, with a value and a new state. -/
def Gives (x : StateT σ (Except ε) α) (s : σ) (a : α) (s' : σ) : Prop := x.run s = .ok (a, s')

@[simp] theorem gives_pure {a b : α} :
    Gives (pure a : StateT σ (Except ε) α) s b s' ↔ b = a ∧ s' = s := by
  change (Except.ok (a, s) : Except ε (α × σ)) = .ok (b, s') ↔ _
  simp [eq_comm]

@[simp] theorem gives_bind :
    Gives (x >>= f) s b s' ↔ ∃ a m, Gives x s a m ∧ Gives (f a) m b s' := by
  unfold Gives
  rw [StateT.run_bind]
  cases hx : x.run s with
  | error e =>
    constructor
    · intro h
      cases h
    · rintro ⟨a, m, h, -⟩
      cases h
  | ok p =>
    obtain ⟨a, m⟩ := p
    constructor
    · intro h
      exact ⟨a, m, rfl, h⟩
    · rintro ⟨a', m', h, hf⟩
      cases h
      exact hf

/-- A step that fails has failed itself, or what came after it has. -/
theorem run_bind_error (h : (x >>= f).run s = .error e) :
    x.run s = .error e ∨ ∃ a m, Gives x s a m ∧ (f a).run m = .error e := by
  rw [StateT.run_bind] at h
  cases hx : x.run s with
  | error e' =>
    have heq : e' = e := by simpa [hx, bind, Except.bind] using h
    rw [heq]
    exact .inl rfl
  | ok p =>
    rw [hx] at h
    exact .inr ⟨p.1, p.2, hx, h⟩

theorem run_bind_of_error (h : x.run s = .error e) : (x >>= f).run s = .error e := by
  rw [StateT.run_bind, h]
  rfl

theorem run_bind_of_gives (h : Gives x s a s') : (x >>= f).run s = (f a).run s' := by
  rw [StateT.run_bind, show x.run s = .ok (a, s') from h]
  rfl

@[simp] theorem gives_map {f : α → β} : Gives (f <$> x) s b s' ↔ ∃ a, Gives x s a s' ∧ b = f a := by
  rw [map_eq_pure_bind, gives_bind]
  constructor
  · rintro ⟨a, m, hx, hb⟩
    obtain ⟨rfl, rfl⟩ := gives_pure.mp hb
    exact ⟨a, hx, rfl⟩
  · rintro ⟨a, hx, rfl⟩
    exact ⟨a, s', hx, gives_pure.mpr ⟨rfl, rfl⟩⟩

@[simp] theorem not_gives_throw : ¬ Gives (throw e : StateT σ (Except ε) α) s a s' := by
  change ¬ (Except.error e : Except ε (α × σ)) = .ok (a, s')
  simp

@[simp] theorem gives_get {a : σ} :
    Gives (get : StateT σ (Except ε) σ) s a s' ↔ a = s ∧ s' = s := by
  change (Except.ok (s, s) : Except ε (σ × σ)) = .ok (a, s') ↔ _
  simp [eq_comm]

@[simp] theorem gives_modify {f : σ → σ} {u : Unit} :
    Gives (modify f : StateT σ (Except ε) Unit) s u s' ↔ s' = f s := by
  change (Except.ok ((), f s) : Except ε (Unit × σ)) = .ok (u, s') ↔ _
  simp [eq_comm]

@[simp] theorem gives_liftM {x : Except ε α} :
    Gives (liftM x : StateT σ (Except ε) α) s a s' ↔ x = .ok a ∧ s' = s := by
  change (x >>= fun a => Except.ok (a, s)) = Except.ok (a, s') ↔ _
  cases x with
  | error e => simp [bind, Except.bind]
  | ok b => simp [bind, Except.bind, eq_comm]

theorem except_bind_ok {x : Except ε α} {f : α → Except ε β} :
    x >>= f = .ok b ↔ ∃ a, x = .ok a ∧ f a = .ok b := by
  cases x with
  | error e => simp [bind, Except.bind]
  | ok a => simp [bind, Except.bind]

theorem except_seq_ok {x : Except ε Unit} {y : Except ε β} :
    (x >>= fun _ => y) = .ok b ↔ x = .ok () ∧ y = .ok b := by
  rw [except_bind_ok]
  constructor
  · rintro ⟨_, hx, hy⟩
    exact ⟨hx, hy⟩
  · rintro ⟨hx, hy⟩
    exact ⟨(), hx, hy⟩

theorem exists_ok_of_any {x : Except ε α} {p : α → Bool} (h : x.toOption.any p = true) :
    ∃ a, x = .ok a ∧ p a = true := by
  cases x with
  | error e => cases h
  | ok a => exact ⟨a, rfl, h⟩

/-- Each item of a list is computed in its turn. -/
theorem gives_mapM {xs : List α} {bs : List β} (h : Gives (xs.mapM f) s bs s') :
    List.Forall₂ (fun a b => ∃ m m', Gives (f a) m b m') xs bs := by
  induction xs generalizing s bs with
  | nil =>
    rw [mapM_nil, gives_pure] at h
    rw [h.1]
    exact .nil
  | cons x xs ih =>
    simp only [mapM_cons, gives_bind, gives_pure] at h
    obtain ⟨b, m, hx, bs', m', hrest, rfl, rfl⟩ := h
    exact .cons ⟨s, m, hx⟩ (ih hrest)

end

/-! ### Errors -/

/-- Every error of the computation, from any state, satisfies a predicate. -/
def FailsOnly {σ ε α : Type} (P : ε → Prop) (x : StateT σ (Except ε) α) : Prop :=
  ∀ ⦃s e⦄, x.run s = .error e → P e

namespace FailsOnly

variable {σ ε α β : Type} {P Q : ε → Prop} {x : StateT σ (Except ε) α}
  {f : α → StateT σ (Except ε) β}

theorem imp (h : FailsOnly P x) (hPQ : ∀ e, P e → Q e) : FailsOnly Q x :=
  fun _ e hrun => hPQ e (h hrun)

theorem pure (a : α) : FailsOnly P (Pure.pure a : StateT σ (Except ε) α) :=
  fun _ _ hrun => by cases hrun

theorem throw (h : P e) : FailsOnly P (throw e : StateT σ (Except ε) α) := by
  intro s e' hrun
  obtain rfl : e = e' := Except.error.inj hrun
  exact h

theorem bind (hx : FailsOnly P x) (hf : ∀ a, FailsOnly P (f a)) : FailsOnly P (x >>= f) := by
  intro s e hrun
  rcases run_bind_error hrun with hfirst | ⟨a, m, -, hsecond⟩
  · exact hx hfirst
  · exact hf a hsecond

theorem modify (g : σ → σ) : FailsOnly P (modify g : StateT σ (Except ε) Unit) :=
  fun _ _ hrun => by cases hrun

theorem ite {c : Prop} [Decidable c] {y : StateT σ (Except ε) α} (hx : FailsOnly P x)
    (hy : FailsOnly P y) : FailsOnly P (if c then x else y) := by
  split
  · exact hx
  · exact hy

/-- A step that is sometimes left out. -/
theorem when {c : Prop} [Decidable c] {x : StateT σ (Except ε) Unit}
    {f : Unit → StateT σ (Except ε) β} (hx : FailsOnly P x) (hf : ∀ u, FailsOnly P (f u)) :
    FailsOnly P (if c then x >>= f else f ()) :=
  ite (hx.bind hf) (hf ())

theorem map (g : α → β) (hx : FailsOnly P x) : FailsOnly P (g <$> x) := by
  rw [map_eq_pure_bind]
  exact hx.bind fun _ => .pure _

theorem mapM {as : List α} (h : ∀ a ∈ as, FailsOnly P (f a)) : FailsOnly P (as.mapM f) := by
  induction as with
  | nil => exact .pure _
  | cons a as ih =>
    rw [mapM_cons]
    refine (h a (by simp)).bind fun _ => .bind (ih fun b hb => h b (by simp [hb])) fun _ => .pure _

theorem foldlM {g : β → α → StateT σ (Except ε) β} {as : List α}
    (h : ∀ a ∈ as, ∀ b, FailsOnly P (g b a)) (b : β) : FailsOnly P (as.foldlM g b) := by
  induction as generalizing b with
  | nil => exact .pure _
  | cons a as ih =>
    rw [foldlM_cons]
    exact (h a (by simp) b).bind fun b' => ih (fun c hc => h c (by simp [hc])) b'

end FailsOnly

/-! ### Lists whose items correspond -/

section

variable {α β : Type} {R : α → β → Prop} {xs : List α} {ys : List β}

theorem getElem?_of_forall₂ (h : List.Forall₂ R xs ys) {i : Nat} (ha : xs[i]? = some a) :
    ∃ b, ys[i]? = some b ∧ R a b := by
  induction h generalizing i with
  | nil => simp at ha
  | cons hab _ ih =>
    cases i with
    | zero =>
      obtain rfl : _ = a := by simpa using ha
      exact ⟨_, rfl, hab⟩
    | succ i => exact ih (by simpa using ha)

theorem mem_of_forall₂ (h : List.Forall₂ R xs ys) (ha : a ∈ xs) : ∃ b ∈ ys, R a b := by
  obtain ⟨i, hi⟩ := mem_iff_getElem?.mp ha
  obtain ⟨b, hb, hab⟩ := getElem?_of_forall₂ h hi
  exact ⟨b, mem_of_getElem? hb, hab⟩

theorem mem_of_forall₂_right (h : List.Forall₂ R xs ys) (hb : b ∈ ys) : ∃ a ∈ xs, R a b :=
  mem_of_forall₂ (R := flip R) h.flip hb

theorem map_eq_map_of_forall₂ {γ : Type} {f : α → γ} {g : β → γ}
    (h : List.Forall₂ (fun a b => f a = g b) xs ys) : xs.map f = ys.map g := by
  rw [← List.forall₂_eq_eq_eq, List.forall₂_map_left_iff, List.forall₂_map_right_iff]
  exact h

/-- Two items of a list in order are the same, or one of them is ahead of the other. -/
theorem eq_or_rel_of_pairwise {S : α → α → Prop} (h : xs.Pairwise S) {a b : α} (ha : a ∈ xs)
    (hb : b ∈ xs) : a = b ∨ S a b ∨ S b a := by
  obtain ⟨i, hi, rfl⟩ := mem_iff_getElem.mp ha
  obtain ⟨j, hj, rfl⟩ := mem_iff_getElem.mp hb
  rw [pairwise_iff_getElem] at h
  rcases Nat.lt_trichotomy i j with hlt | rfl | hgt
  · exact .inr (.inl (h i j hi hj hlt))
  · exact .inl rfl
  · exact .inr (.inr (h j i hj hi hgt))

end

end Offload
