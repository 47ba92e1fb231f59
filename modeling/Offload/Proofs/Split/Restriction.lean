import Mathlib.Tactic
import Offload.Split.Restriction

/-!
# Which functions are restricted to one side

The validation of a restriction comes down to a condition on the first attribute alone: it stands
after the function's name and lists one target, and nothing else, at least once.
-/

namespace Offload.Split

open Offload.Source

/-- The function's first restriction stands after its name and lists the target and nothing else. -/
def restrictedTo (marker target : String) (f : FunctionDecl) : Bool :=
  match f.attributesNamed marker with
  | [] => false
  | a :: _ => !a.beforeName && !a.args.isEmpty && a.args.all (names target)

theorem argFlaw?_eq_none_iff {arg : AttributeArg} :
    argFlaw? arg = none ↔ names "cpu" arg = true ∨ names "gpu" arg = true := by
  cases arg with
  | str s =>
    simp only [argFlaw?, names]
    split_ifs with h <;> simp_all
  | other s => simp [argFlaw?, names]

theorem eq_of_names {target other : String} {arg : AttributeArg} (h : names target arg = true)
    (h' : names other arg = true) : target = other := by
  cases arg with
  | str s => exact (beq_iff_eq.mp h).symm.trans (beq_iff_eq.mp h')
  | other s => cases h

/-- A restriction is valid if it lists targets, at least one, and stands after the name. -/
theorem restrictionFlaws_eq_nil_iff {a : Attribute} {function : String} :
    restrictionFlaws a function = [] ↔
      a.beforeName = false ∧ a.args ≠ [] ∧
        ∀ arg ∈ a.args, names "cpu" arg = true ∨ names "gpu" arg = true := by
  have hargs : a.args.filterMap argFlaw? = [] ↔
      ∀ arg ∈ a.args, names "cpu" arg = true ∨ names "gpu" arg = true := by
    simp only [List.filterMap_eq_nil_iff, argFlaw?_eq_none_iff]
  have htarget : (∀ arg ∈ a.args, names "cpu" arg = true ∨ names "gpu" arg = true) →
      ((a.args.any (names "cpu") || a.args.any (names "gpu")) = true ↔ a.args ≠ []) := by
    intro hall
    cases hl : a.args with
    | nil => simp
    | cons arg rest =>
      rcases hall arg (by simp [hl]) with h | h <;> simp [h]
  have hflaws : a.args.filterMap argFlaw? ++
      (if (a.args.any (names "cpu") || a.args.any (names "gpu")) = true then []
        else [RestrictionFlaw.noTarget]) = [] ↔
      a.args ≠ [] ∧ ∀ arg ∈ a.args, names "cpu" arg = true ∨ names "gpu" arg = true := by
    rw [List.append_eq_nil_iff, hargs]
    constructor
    · rintro ⟨hall, hlisted⟩
      refine ⟨(htarget hall).mp ?_, hall⟩
      by_contra hnone
      simp [hnone] at hlisted
    · rintro ⟨hne, hall⟩
      exact ⟨hall, if_pos ((htarget hall).mpr hne)⟩
  simp only [restrictionFlaws]
  rw [← hflaws]
  generalize a.args.filterMap argFlaw? ++ _ = flaws
  cases a.beforeName <;> cases flaws <;> simp

/-- A valid restriction lists one target and not the other exactly if every argument is that
target. -/
theorem valid_and_only_iff {a : Attribute} (function : String) {target other : String}
    (h : target = "cpu" ∧ other = "gpu" ∨ target = "gpu" ∧ other = "cpu") :
    restrictionFlaws a function = [] ∧ a.args.any (names target) = true ∧
        a.args.any (names other) = false ↔
      a.beforeName = false ∧ a.args ≠ [] ∧ ∀ arg ∈ a.args, names target arg = true := by
  have hne : target ≠ other := by rcases h with ⟨rfl, rfl⟩ | ⟨rfl, rfl⟩ <;> decide
  have hswap : ∀ arg, (names "cpu" arg = true ∨ names "gpu" arg = true) ↔
      (names target arg = true ∨ names other arg = true) := by
    rcases h with ⟨rfl, rfl⟩ | ⟨rfl, rfl⟩
    · exact fun _ => Iff.rfl
    · exact fun _ => or_comm
  simp only [restrictionFlaws_eq_nil_iff, hswap]
  constructor
  · rintro ⟨⟨hplace, hargs, hall⟩, -, hother⟩
    refine ⟨hplace, hargs, fun arg harg => (hall arg harg).resolve_right ?_⟩
    exact List.any_eq_false.mp hother arg harg
  · rintro ⟨hplace, hargs, htarget⟩
    obtain ⟨arg, harg⟩ := List.exists_mem_of_ne_nil _ hargs
    refine ⟨⟨hplace, hargs, fun x hx => Or.inl (htarget x hx)⟩,
      List.any_eq_true.mpr ⟨arg, harg, htarget arg harg⟩, List.any_eq_false.mpr ?_⟩
    intro x hx hother
    exact hne (eq_of_names (htarget x hx) hother)

theorem restrictedTo_eq_nil {marker target : String} {f : FunctionDecl}
    (h : f.attributesNamed marker = []) : restrictedTo marker target f = false := by
  rw [restrictedTo, h]

theorem restrictedTo_cons_iff {marker target : String} {f : FunctionDecl} {a : Attribute}
    {others : List Attribute} (h : f.attributesNamed marker = a :: others) :
    restrictedTo marker target f = true ↔
      a.beforeName = false ∧ a.args ≠ [] ∧ ∀ arg ∈ a.args, names target arg = true := by
  rw [restrictedTo, h]
  simp [and_assoc]

/-- A function is restricted to one side at most. -/
theorem restrictedTo_exclusive (marker : String) (f : FunctionDecl)
    (h : restrictedTo marker "cpu" f = true) : restrictedTo marker "gpu" f = false := by
  cases ha : f.attributesNamed marker with
  | nil => exact restrictedTo_eq_nil ha
  | cons a others =>
    obtain ⟨-, hargs, hcpu⟩ := (restrictedTo_cons_iff ha).mp h
    obtain ⟨arg, harg⟩ := List.exists_mem_of_ne_nil _ hargs
    rw [← Bool.not_eq_true, restrictedTo_cons_iff ha]
    rintro ⟨-, -, hgpu⟩
    exact absurd (eq_of_names (hcpu arg harg) (hgpu arg harg)) (by decide)

theorem only_restriction (f : FunctionDecl) (marker : String) :
    (restriction f marker).1.hostOnly = restrictedTo marker "cpu" f ∧
      (restriction f marker).1.deviceOnly = restrictedTo marker "gpu" f := by
  unfold restriction
  cases ha : f.attributesNamed marker with
  | nil =>
    rw [restrictedTo_eq_nil ha, restrictedTo_eq_nil ha]
    exact ⟨rfl, rfl⟩
  | cons a others =>
    constructor <;> rw [Bool.eq_iff_iff, restrictedTo_cons_iff ha]
    · rw [← valid_and_only_iff f.name (Or.inl ⟨rfl, rfl⟩)]
      simp [Restriction.hostOnly, and_assoc]
    · rw [← valid_and_only_iff f.name (Or.inr ⟨rfl, rfl⟩)]
      simp [Restriction.deviceOnly, and_comm, and_left_comm]

end Offload.Split
