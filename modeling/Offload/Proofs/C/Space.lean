import Offload.C.Function
import Offload.Proofs.C.Operand
import Mathlib.Data.List.Basic
import Mathlib.Order.Bounds.Basic

/-!
# Address spaces of a device function

An address space spreads from the pointer parameters of a kernel and from global variables to
whatever is computed from them. The rounds over the instructions end, because each one before the
last gives some result its space, and they end with the least set of values that is closed under
taking an element's address, a bitcast, a selection and a phi. Every space is the one of a parameter
or global that the value comes from.
-/

namespace Offload.C

open Offload.Compiled List

/-- The operands from which the result of an instruction takes its address space: the base of an
element's address, what is bitcast, both sides of a selection, all that comes into a phi. -/
def spaceSources : Instruction → List Value
  | .elementPtr _ _ base _ _ => [base]
  | .cast _ .bitcast _ v _ => [v]
  | .select _ _ _ onTrue onFalse => [onTrue, onFalse]
  | .phi _ _ incoming => incoming.map (·.1)
  | _ => []

/-- What an address space comes from. -/
inductive SpaceRoot where
  /-- A pointer parameter of a kernel. -/
  | param (p : Param)
  /-- A global variable. -/
  | symbol (g : Global)

def SpaceRoot.space : SpaceRoot → AddressSpace
  | .param _ => .global
  | .symbol g => if g.isConstant then .constant else .global

/-- A value comes from a root through instructions that pass the address space on. -/
inductive ComesFrom (w : Writer) (m : Module) (f : Function) : Value → SpaceRoot → Prop
  | param {p : Param} : w.isKernel f = true → p ∈ f.params → p.type.isPtr = true →
    ComesFrom w m f (.var p.name) (.param p)
  | symbol {name : String} {g : Global} : m.global? name = some g →
    ComesFrom w m f (.symbol name) (.symbol g)
  | result {i : Instruction} {dest : String} {v : Value} {root : SpaceRoot} :
    i ∈ f.instructions → i.dest? = some dest → v ∈ spaceSources i → ComesFrom w m f v root →
      ComesFrom w m f (.var dest) root

/-- The value is a member of the set or a global variable. -/
def IsPlaced (m : Module) (S : Set String) : Value → Prop
  | .var name => name ∈ S
  | .symbol name => (m.global? name).isSome = true
  | _ => False

/-- A set of values with the pointer parameters of a kernel and with every result that takes its
space from a member or from a global variable. -/
structure SpaceClosed (w : Writer) (m : Module) (f : Function) (S : Set String) : Prop where
  params : w.isKernel f = true → ∀ p ∈ f.params, p.type.isPtr = true → p.name ∈ S
  results : ∀ i ∈ f.instructions, ∀ v ∈ spaceSources i, IsPlaced m S v →
    ∀ dest, i.dest? = some dest → dest ∈ S

/-- The values that have an address space. -/
def Scope.spaced (s : Scope) : Set String := {name | (s.spaces.lookup name).isSome = true}

section

variable {w : Writer} {m : Module} {f : Function} {s r : Scope} {i : Instruction}
  {instructions : List Instruction} {space : AddressSpace} {v : Value} {name : String}

theorem ComesFrom.isPlaced {S : Set String} (hS : SpaceClosed w m f S)
    {root : SpaceRoot} (h : ComesFrom w m f v root) : IsPlaced m S v := by
  induction h with
  | param hk hp hptr => exact hS.params hk _ hp hptr
  | symbol hg => simp [IsPlaced, hg]
  | result hi hdest hv _ ih => exact hS.results _ hi _ hv ih _ hdest

/-! ### One step -/

theorem mem_spaced_iff : name ∈ s.spaced ↔ (s.spaces.lookup name).isSome = true := Iff.rfl

theorem not_mem_spaced_iff : name ∉ s.spaced ↔ s.spaces.lookup name = none := by
  rw [mem_spaced_iff, Bool.not_eq_true, Option.isSome_eq_false_iff, Option.isNone_iff_eq_none]

theorem isSome_spaceOf?_iff : (s.spaceOf? v).isSome = true ↔ IsPlaced s.module s.spaced v := by
  cases v <;> simp [Scope.spaceOf?, IsPlaced, Scope.spaced]

/-- The space of a result is that of the first source that has one. -/
theorem derivedSpace?_eq (s : Scope) (i : Instruction) :
    Writer.derivedSpace? s i = (spaceSources i).findSome? s.spaceOf? := by
  have hone : ∀ v, [v].findSome? s.spaceOf? = s.spaceOf? v := by
    intro v
    cases h : s.spaceOf? v <;> simp [h]
  cases i with
  | elementPtr dest source base indices result => exact (hone base).symm
  | cast dest op source v target =>
    cases op with
    | bitcast => exact (hone v).symm
    | _ => rfl
  | select dest condition t onTrue onFalse =>
    cases htrue : s.spaceOf? onTrue <;> cases hfalse : s.spaceOf? onFalse <;>
      simp [Writer.derivedSpace?, spaceSources, htrue, hfalse]
  | phi dest t incoming =>
    simp [Writer.derivedSpace?, spaceSources, findSome?_map, Function.comp_def]
  | _ => rfl

/-- A step changes nothing, or it gives a result without a space that of one of its sources. -/
theorem spreadStep_cases (s : Scope) (i : Instruction) :
    Writer.spreadStep s i = s ∨
      ∃ dest space, i.dest? = some dest ∧ dest ∉ s.spaced ∧
        (∃ v ∈ spaceSources i, s.spaceOf? v = some space) ∧
        Writer.spreadStep s i = { s with spaces := (dest, space) :: s.spaces } := by
  unfold Writer.spreadStep
  split
  · rename_i space dest hspace hdest
    split
    · exact .inl rfl
    · rename_i hnone
      rw [derivedSpace?_eq] at hspace
      obtain ⟨v, hv, hvspace⟩ := exists_of_findSome?_eq_some hspace
      exact .inr ⟨dest, space, hdest, hnone, ⟨v, hv, hvspace⟩, rfl⟩
  · exact .inl rfl

/-- Where a step changes nothing, the result has a space as soon as one of its sources has. -/
theorem mem_spaced_of_spreadStep_eq (h : Writer.spreadStep s i = s)
    (hv : v ∈ spaceSources i) (hplaced : IsPlaced s.module s.spaced v) {dest : String}
    (hdest : i.dest? = some dest) : dest ∈ s.spaced := by
  have hderived : (Writer.derivedSpace? s i).isSome = true := by
    rw [derivedSpace?_eq, findSome?_isSome_iff]
    exact ⟨v, hv, isSome_spaceOf?_iff.mpr hplaced⟩
  obtain ⟨space, hspace⟩ := Option.isSome_iff_exists.mp hderived
  by_contra hnone
  have hadded : Writer.spreadStep s i = { s with spaces := (dest, space) :: s.spaces } := by
    simp only [Writer.spreadStep, hspace, hdest]
    exact if_neg hnone
  have hlength := congrArg (fun s : Scope => s.spaces.length) (hadded.symm.trans h)
  simp at hlength

@[simp] theorem module_spreadStep (s : Scope) (i : Instruction) :
    (Writer.spreadStep s i).module = s.module := by
  rcases spreadStep_cases s i with heq | ⟨dest, space, -, -, -, heq⟩ <;> rw [heq]

theorem mem_spaced_cons_iff {name dest : String} :
    name ∈ ({ s with spaces := (dest, space) :: s.spaces } : Scope).spaced ↔
      name = dest ∨ name ∈ s.spaced := by
  rw [mem_spaced_iff, mem_spaced_iff, lookup_cons]
  by_cases h : name = dest
  · simp [h]
  · rw [beq_false_of_ne h]
    exact (or_iff_right h).symm

theorem spaced_subset_spreadStep (s : Scope) (i : Instruction) :
    s.spaced ⊆ (Writer.spreadStep s i).spaced := by
  intro name hname
  rcases spreadStep_cases s i with heq | ⟨dest, space, -, -, -, heq⟩
  · rw [heq]
    exact hname
  · rw [heq]
    exact mem_spaced_cons_iff.mpr (.inr hname)

/-! ### Rounds -/

/-- The instruction has a result without an address space. -/
def lacksSpace (s : Scope) (i : Instruction) : Bool :=
  i.dest?.any fun dest => (s.spaces.lookup dest).isNone

theorem lacksSpace_iff {dest : String} (h : i.dest? = some dest) :
    lacksSpace s i = true ↔ dest ∉ s.spaced := by
  rw [not_mem_spaced_iff, lacksSpace, h]
  simp

/-- Entries and results still to get one: a step makes at most one of the latter one of the
former. -/
def spaceBudget (instructions : List Instruction) (s : Scope) : Nat :=
  s.spaces.length + instructions.countP (lacksSpace s)

theorem spaceBudget_spreadStep (hi : i ∈ instructions) (s : Scope) :
    spaceBudget instructions (Writer.spreadStep s i) ≤ spaceBudget instructions s := by
  rcases spreadStep_cases s i with heq | ⟨dest, space, hdest, hnone, -, heq⟩
  · rw [heq]
  · rw [heq]
    set s' : Scope := { s with spaces := (dest, space) :: s.spaces }
    have himp : ∀ j ∈ instructions, lacksSpace s' j = true → lacksSpace s j = true := by
      intro j _ hj
      cases hd : j.dest? with
      | none => simp [lacksSpace, hd] at hj
      | some d =>
        rw [lacksSpace_iff hd] at hj ⊢
        exact fun hmem => hj (mem_spaced_cons_iff.mpr (.inr hmem))
    have hnow : lacksSpace s' i = false := by
      rw [← Bool.not_eq_true, lacksSpace_iff hdest, not_not]
      exact mem_spaced_cons_iff.mpr (.inl rfl)
    have hbefore : lacksSpace s i = true := (lacksSpace_iff hdest).mpr hnone
    obtain ⟨front, back, rfl⟩ := append_of_mem hi
    have hfront := countP_mono_left fun j hj => himp j (mem_append_left _ hj)
    have hback := countP_mono_left fun j hj =>
      himp j (mem_append_right _ (mem_cons_of_mem _ hj))
    have hlength : s'.spaces.length = s.spaces.length + 1 := rfl
    simp only [spaceBudget, countP_append, countP_cons, hnow, hbefore, hlength, if_true,
      Bool.false_eq_true, if_false]
    omega

/-- What every step keeps is kept by a round. -/
theorem foldl_spreadStep_induction {P : Scope → Prop}
    (hstep : ∀ s, ∀ i ∈ instructions, P s → P (Writer.spreadStep s i)) (hs : P s) :
    P (instructions.foldl Writer.spreadStep s) := by
  have hpart : ∀ part ⊆ instructions, ∀ s, P s → P (part.foldl Writer.spreadStep s) := by
    intro part
    induction part with
    | nil => exact fun _ s hs => hs
    | cons i part ih =>
      intro hsub s hs
      obtain ⟨hi, hsub⟩ := cons_subset.mp hsub
      exact ih hsub _ (hstep s i hi hs)
  exact hpart instructions (List.Subset.refl _) s hs

theorem length_le_spreadStep (s : Scope) (i : Instruction) :
    s.spaces.length ≤ (Writer.spreadStep s i).spaces.length := by
  rcases spreadStep_cases s i with heq | ⟨dest, space, -, -, -, heq⟩ <;> rw [heq]
  exact Nat.le_succ _

theorem length_le_foldl_spreadStep (instructions : List Instruction) (s : Scope) :
    s.spaces.length ≤ (instructions.foldl Writer.spreadStep s).spaces.length :=
  foldl_spreadStep_induction (P := fun r => s.spaces.length ≤ r.spaces.length)
    (fun r i _ hr => hr.trans (length_le_spreadStep r i)) le_rfl

/-- A round that adds no entry changes nothing, and neither does any of its steps. -/
theorem spreadStep_eq_of_length_eq
    (h : (instructions.foldl Writer.spreadStep s).spaces.length = s.spaces.length) :
    ∀ i ∈ instructions, Writer.spreadStep s i = s := by
  induction instructions with
  | nil => simp
  | cons i rest ih =>
    rw [foldl_cons] at h
    have hrest := length_le_foldl_spreadStep rest (Writer.spreadStep s i)
    have hfirst : Writer.spreadStep s i = s := by
      rcases spreadStep_cases s i with heq | ⟨dest, space, -, -, -, heq⟩
      · exact heq
      · rw [heq] at h hrest
        simp only [length_cons] at hrest
        omega
    rw [hfirst] at h
    exact forall_mem_cons.mpr ⟨hfirst, ih h⟩

theorem foldl_spreadStep_eq (h : ∀ i ∈ instructions, Writer.spreadStep s i = s) :
    instructions.foldl Writer.spreadStep s = s :=
  foldl_spreadStep_induction (P := fun r => r = s)
    (fun r i hi hr => by rw [hr]; exact h i hi) rfl

/-- Rounds over the instructions lead from one scope to another, at which a round changes nothing.
There is no bound on their number. -/
inductive Spreads (instructions : List Instruction) : Scope → Scope → Prop
  | settled {s : Scope} : instructions.foldl Writer.spreadStep s = s → Spreads instructions s s
  | round {s r : Scope} : instructions.foldl Writer.spreadStep s ≠ s →
    Spreads instructions (instructions.foldl Writer.spreadStep s) r → Spreads instructions s r

theorem Spreads.induction {P : Scope → Prop} (h : Spreads instructions s r)
    (hstep : ∀ s, ∀ i ∈ instructions, P s → P (Writer.spreadStep s i)) (hs : P s) : P r := by
  induction h with
  | settled _ => exact hs
  | round _ _ ih => exact ih (foldl_spreadStep_induction hstep hs)

theorem Spreads.spreadStep_eq (h : Spreads instructions s r) :
    ∀ i ∈ instructions, Writer.spreadStep r i = r := by
  induction h with
  | settled heq =>
    apply spreadStep_eq_of_length_eq
    rw [heq]
  | round _ _ ih => exact ih

/-- Each round before the last lowers the number of results without a space, so a bound above it is
not used up. -/
theorem spreads_spread {fuel : Nat} (h : instructions.countP (lacksSpace s) < fuel) :
    Spreads instructions s (Writer.spread instructions fuel s) := by
  induction fuel generalizing s with
  | zero => omega
  | succ fuel ih =>
    rw [Writer.spread]
    have hle := length_le_foldl_spreadStep instructions s
    have hbudget : spaceBudget instructions (instructions.foldl Writer.spreadStep s) ≤
        spaceBudget instructions s :=
      foldl_spreadStep_induction
        (P := fun r => spaceBudget instructions r ≤ spaceBudget instructions s)
        (fun r i hi hr => (spaceBudget_spreadStep hi r).trans hr) le_rfl
    rw [spaceBudget, spaceBudget] at hbudget
    split
    · rename_i hlength
      exact .settled (foldl_spreadStep_eq (spreadStep_eq_of_length_eq hlength))
    · rename_i hlength
      refine .round (fun heq => hlength (by rw [heq])) (ih ?_)
      omega

/-! ### The scope of a function -/

/-- The scope that the rounds start from: only the pointer parameters of a kernel have a space. -/
def startScope (w : Writer) (m : Module) (f : Function) : Scope :=
  ⟨m, Writer.valueTypes f, w.kernelSpaces f⟩

theorem spreads_scopeOf (hw : w.dialect = .openCl) (m : Module) (f : Function) :
    Spreads f.instructions (startScope w m f) (w.scopeOf m f) := by
  unfold Writer.scopeOf
  rw [hw]
  exact spreads_spread (Nat.lt_succ_of_le countP_le_length)

theorem mem_kernelSpaces_iff :
    (name, space) ∈ w.kernelSpaces f ↔ w.isKernel f = true ∧ space = .global ∧
      ∃ p ∈ f.params, p.type.isPtr = true ∧ p.name = name := by
  unfold Writer.kernelSpaces
  split
  · rename_i hk
    simp only [hk, true_and, mem_map, mem_filter, Prod.mk.injEq]
    constructor
    · rintro ⟨p, ⟨hp, hptr⟩, hname, hspace⟩
      exact ⟨hspace.symm, p, hp, hptr, hname⟩
    · rintro ⟨hspace, p, hp, hptr, hname⟩
      exact ⟨p, ⟨hp, hptr⟩, hname, hspace.symm⟩
  · rename_i hk
    simp [hk]

/-- Every space in a scope is that of a root from which the value comes. -/
structure SpacesFromRoots (w : Writer) (m : Module) (f : Function) (s : Scope) : Prop where
  module_eq : s.module = m
  comesFrom : ∀ name space, s.spaces.lookup name = some space →
    ∃ root, ComesFrom w m f (.var name) root ∧ root.space = space

theorem spacesFromRoots_startScope (w : Writer) (m : Module) (f : Function) :
    SpacesFromRoots w m f (startScope w m f) := by
  refine ⟨rfl, ?_⟩
  intro name space h
  obtain ⟨before, after, hsplit, -⟩ := lookup_eq_some_iff.mp h
  have hmem : (name, space) ∈ w.kernelSpaces f := by
    rw [show w.kernelSpaces f = before ++ (name, space) :: after from hsplit]
    simp
  obtain ⟨hk, rfl, p, hp, hptr, rfl⟩ := mem_kernelSpaces_iff.mp hmem
  exact ⟨.param p, .param hk hp hptr, rfl⟩

theorem SpacesFromRoots.spaceOf? (h : SpacesFromRoots w m f s)
    (hv : s.spaceOf? v = some space) : ∃ root, ComesFrom w m f v root ∧ root.space = space := by
  cases v with
  | var name => exact h.comesFrom name space hv
  | symbol name =>
    obtain ⟨g, hg, hspace⟩ := Option.map_eq_some_iff.mp hv
    exact ⟨.symbol g, .symbol (h.module_eq ▸ hg), hspace⟩
  | _ => cases hv

theorem SpacesFromRoots.spreadStep (h : SpacesFromRoots w m f s) (hi : i ∈ f.instructions) :
    SpacesFromRoots w m f (Writer.spreadStep s i) := by
  refine ⟨by rw [module_spreadStep, h.module_eq], ?_⟩
  rcases spreadStep_cases s i with heq | ⟨dest, new, hdest, -, ⟨v, hv, hvspace⟩, heq⟩
  · rw [heq]
    exact h.comesFrom
  · rw [heq]
    intro name space hlookup
    rw [lookup_cons] at hlookup
    by_cases hname : name = dest
    · obtain ⟨root, hroot, hspace⟩ := h.spaceOf? hvspace
      simp only [hname, beq_self_eq_true, Option.some.injEq] at hlookup
      rw [hname, ← hlookup]
      exact ⟨root, .result hi hdest hv hroot, hspace⟩
    · rw [beq_false_of_ne hname] at hlookup
      exact h.comesFrom name space hlookup

theorem spacesFromRoots_scopeOf (hw : w.dialect = .openCl) (m : Module) (f : Function) :
    SpacesFromRoots w m f (w.scopeOf m f) :=
  (spreads_scopeOf hw m f).induction (fun _ _ hi hs => hs.spreadStep hi)
    (spacesFromRoots_startScope w m f)

/-- Where the rounds end, every result has a space that could get one. -/
theorem spaceClosed_scopeOf (hw : w.dialect = .openCl) (m : Module) (f : Function) :
    SpaceClosed w m f (w.scopeOf m f).spaced := by
  have hspreads := spreads_scopeOf hw m f
  have hmodule := (spacesFromRoots_scopeOf hw m f).module_eq
  constructor
  · intro hk p hp hptr
    refine hspreads.induction (P := fun s => p.name ∈ s.spaced)
      (fun s i _ hs => spaced_subset_spreadStep s i hs) ?_
    rw [mem_spaced_iff, lookup_isSome_iff]
    exact ⟨(p.name, .global), mem_kernelSpaces_iff.mpr ⟨hk, rfl, p, hp, hptr, rfl⟩, by simp⟩
  · intro i hi v hv hplaced dest hdest
    apply mem_spaced_of_spreadStep_eq (hspreads.spreadStep_eq i hi) hv _ hdest
    rw [hmodule]
    exact hplaced

theorem isLeast_spaced_scopeOf (hw : w.dialect = .openCl) (m : Module) (f : Function) :
    IsLeast {S | SpaceClosed w m f S} (w.scopeOf m f).spaced := by
  refine ⟨spaceClosed_scopeOf hw m f, fun S hS name hname => ?_⟩
  obtain ⟨space, hspace⟩ := Option.isSome_iff_exists.mp hname
  obtain ⟨root, hroot, -⟩ := (spacesFromRoots_scopeOf hw m f).comesFrom name space hspace
  exact hroot.isPlaced hS

/-- Being closed is a matter of which instructions there are, and not of their order. -/
theorem spaceClosed_blocks_iff {blocks : List BasicBlock} (hperm : blocks.Perm f.blocks)
    {S : Set String} : SpaceClosed w m { f with blocks := blocks } S ↔ SpaceClosed w m f S := by
  have hmem : ∀ i, i ∈ Function.instructions { f with blocks := blocks } ↔ i ∈ f.instructions :=
    fun i => (hperm.flatMap_right _).mem_iff
  constructor
  · intro h
    exact ⟨h.params, fun i hi => h.results i ((hmem i).mpr hi)⟩
  · intro h
    exact ⟨h.params, fun i hi => h.results i ((hmem i).mp hi)⟩

end

/-- On a device the rounds end, the values with an address space are the least set that has the
pointer parameters of a kernel and is closed under what passes a space on, the order of the blocks
does not matter, and each space is that of a parameter or global from which the value comes. -/
theorem scopeOf_spaces_least (w : Writer) (hw : w.dialect = .openCl) (m : Module) (f : Function) :
    Spreads f.instructions (startScope w m f) (w.scopeOf m f) ∧
      IsLeast {S | SpaceClosed w m f S} (w.scopeOf m f).spaced ∧
      (∀ blocks, blocks.Perm f.blocks →
        (w.scopeOf m { f with blocks := blocks }).spaced = (w.scopeOf m f).spaced) ∧
      ∀ name space, (w.scopeOf m f).spaces.lookup name = some space →
        ∃ root, ComesFrom w m f (.var name) root ∧ root.space = space := by
  refine ⟨spreads_scopeOf hw m f, isLeast_spaced_scopeOf hw m f, ?_,
    (spacesFromRoots_scopeOf hw m f).comesFrom⟩
  intro blocks hperm
  have hleast := isLeast_spaced_scopeOf hw m { f with blocks := blocks }
  simp only [spaceClosed_blocks_iff hperm] at hleast
  exact hleast.unique (isLeast_spaced_scopeOf hw m f)

/-- A writer of OpenCL C for which `k` is a kernel. -/
def deviceWriter : Writer := { hostWriter with dialect := .openCl, kernels := ["k"] }

/-- A pointer that goes round a loop and is set to a constant table on the way. The phi stands ahead
of what it reads. -/
def tableLoop : Function where
  name := "k"
  linkage := .external
  result := .void
  params := [⟨"a", .ptr (.int .w32)⟩, ⟨"n", .int .w32⟩]
  isVariadic := false
  blocks := [
    ⟨"entry", [], some (.jump "loop")⟩,
    ⟨"loop", [.phi "p" (.ptr (.int .w32)) [(.var "q", "loop"), (.var "a", "entry")],
      .select "q" (.bool true) (.ptr (.int .w32)) (.var "p") (.var "t"),
      .elementPtr "t" (.int .w32) (.symbol "table") [(.int .w32, .var "n")] (.ptr (.int .w32)),
      .load "x" (.int .w32) (.var "q")], some (.jump "loop")⟩]

def tableModule : Module where
  name := "m"
  globals := [⟨"table", .internal, .int .w32, true, some (.int 7)⟩]
  functions := [tableLoop]

theorem scopeOf_spaces_least_tableLoop :
    deviceWriter.dialect = .openCl ∧
      (deviceWriter.scopeOf tableModule tableLoop).spaces =
        [("t", .constant), ("q", .global), ("p", .global), ("a", .global)] ∧
      IsLeast {S | SpaceClosed deviceWriter tableModule tableLoop S} {"t", "q", "p", "a"} ∧
      ∃ root, ComesFrom deviceWriter tableModule tableLoop (.var "t") root ∧
        root.space = .constant := by
  have hspaces : (deviceWriter.scopeOf tableModule tableLoop).spaces =
      [("t", .constant), ("q", .global), ("p", .global), ("a", .global)] := by decide +kernel
  obtain ⟨-, hleast, -, hroots⟩ := scopeOf_spaces_least deviceWriter rfl tableModule tableLoop
  have hset : (deviceWriter.scopeOf tableModule tableLoop).spaced = {"t", "q", "p", "a"} := by
    ext name
    rw [mem_spaced_iff, hspaces, lookup_isSome_iff]
    simp
  exact ⟨rfl, hspaces, hset ▸ hleast, hroots "t" .constant (by rw [hspaces]; decide)⟩

end Offload.C
