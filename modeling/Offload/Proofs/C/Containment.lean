import Offload.Proofs.C.Declared
import Mathlib.Data.List.Perm.Subperm
import Mathlib.Logic.Relation
import Mathlib.Order.WellFounded

/-!
# Structs in the order of their containment

A struct is defined after those it stores by value. The walk over these is depth first, with the
structs on the way to the present one kept apart from those already defined. It ends for every
module. Where names are known and distinct, it succeeds exactly if no struct contains itself, and
then each struct with fields is defined once.
-/

namespace Offload.C

open Offload.Compiled List

variable {d : StructDef} {name : String}
open Relation
open scoped List

/-! ### Containment -/

/-- The struct is stored by value in the type. A pointer stores no struct. -/
inductive Stores : Ty → String → Prop
  | struct (name : String) : Stores (.struct name) name
  | array {name : String} {t : Ty} (size : Nat) : Stores t name → Stores (.array size t) name

theorem containedStruct?_eq_some {t : Ty} : containedStruct? t = some name ↔ Stores t name := by
  constructor
  · intro h
    fun_induction containedStruct? t with
    | case1 =>
      cases h
      exact .struct name
    | case2 size t ih => exact .array size (ih h)
    | case3 => cases h
  · intro h
    induction h with
    | struct inner => rfl
    | array size _ ih => exact ih

/-- The structs a struct stores by value, in the order of its fields. -/
def containedStructs (d : StructDef) : List String := d.fields.filterMap containedStruct?

theorem mem_containedStructs {inner : String} :
    inner ∈ containedStructs d ↔ ∃ t ∈ d.fields, Stores t inner := by
  simp only [containedStructs, mem_filterMap, containedStruct?_eq_some]

/-- A struct of the module stores another by value. -/
def Contains (m : Module) (outer inner : String) : Prop :=
  ∃ d ∈ m.structs, d.name = outer ∧ d.isOpaque = false ∧ ∃ t ∈ d.fields, Stores t inner

/-- No struct contains itself, directly or through others. -/
def ContainmentAcyclic (m : Module) : Prop := ∀ name, ¬ TransGen (Contains m) name name

/-- Struct names are distinct, each struct that is not opaque has a field, and the structs it
contains are there with their fields. -/
structure StructsKnown (m : Module) : Prop where
  names : (m.structs.map (·.name)).Nodup
  fields : ∀ d ∈ m.structs, d.isOpaque = false → d.fields ≠ []
  contained : ∀ outer inner, Contains m outer inner →
    ∃ s ∈ m.structs, s.name = inner ∧ s.isOpaque = false

theorem structsKnown_iff {m : Module} :
    StructsKnown m ↔ (m.structs.map (·.name)).Nodup ∧
      ∀ d ∈ m.structs, d.isOpaque = false → d.fields ≠ [] ∧
        ∀ inner ∈ containedStructs d, ∃ s ∈ m.structs, s.name = inner ∧ s.isOpaque = false := by
  constructor
  · intro h
    refine ⟨h.names, fun d hd hfull => ⟨h.fields d hd hfull, fun inner hinner => ?_⟩⟩
    exact h.contained d.name inner ⟨d, hd, rfl, hfull, mem_containedStructs.mp hinner⟩
  · rintro ⟨hnames, hstructs⟩
    refine ⟨hnames, fun d hd hfull => (hstructs d hd hfull).1, ?_⟩
    rintro _ inner ⟨d, hd, rfl, hfull, hstores⟩
    exact (hstructs d hd hfull).2 inner (mem_containedStructs.mpr hstores)

instance (m : Module) : Decidable (StructsKnown m) := decidable_of_iff' _ structsKnown_iff

section

variable {m : Module} {name : String} {d : StructDef}

theorem struct?_eq_some (h : m.struct? name = some d) : d ∈ m.structs ∧ d.name = name :=
  ⟨mem_of_find?_eq_some h, by simpa using find?_some h⟩

theorem struct?_of_mem (hnames : (m.structs.map (·.name)).Nodup) (hd : d ∈ m.structs) :
    m.struct? d.name = some d := by
  cases h : m.struct? d.name with
  | none =>
    have hne := find?_eq_none.mp h d hd
    simp at hne
  | some s =>
    obtain ⟨hs, hname⟩ := struct?_eq_some h
    rw [inj_on_of_nodup_map hnames hs hd hname]

end

/-! ### The walk -/

/-- The definition of a struct. -/
def definitionOf (d : StructDef) : StructDefinition :=
  ⟨structTag d.name, d.fields.mapIdx fun i t => declarationOf [] t (fieldName i), d.isPacked⟩

/-- A defined struct as the walk records it. -/
def definedAs (d : StructDef) : String × StructDefinition := (d.name, definitionOf d)

/-- The name is of a struct that is still to define. -/
structure IsPending (m : Module) (done : List StructDef) (name : String) (d : StructDef) :
    Prop where
  found : m.struct? name = some d
  full : d.isOpaque = false
  undefined : name ∉ done.map (·.name)

/-- The walk over the names still to define has an outcome: the structs defined by then in their
order, or a flaw. `visiting` are the structs that contain the names. -/
inductive Defines (m : Module) : List String → List StructDef → List String →
    Except EmitFlaw (List StructDef) → Prop
  | nil {visiting done} : Defines m visiting done [] (.ok done)
  | unknown {visiting done name rest} (hname : m.struct? name = none) :
      Defines m visiting done (name :: rest) (.error (.unknownStruct name))
  | settled {visiting done name rest d r} (hd : m.struct? name = some d)
      (hsettled : d.isOpaque = true ∨ name ∈ done.map (·.name)) :
      Defines m visiting done rest r → Defines m visiting done (name :: rest) r
  | cyclic {visiting done name rest d} (hd : IsPending m done name d)
      (hvisiting : name ∈ visiting) :
      Defines m visiting done (name :: rest) (.error (.containsItself name))
  | empty {visiting done name rest d} (hd : IsPending m done name d) (hvisiting : name ∉ visiting)
      (hfields : d.fields = []) :
      Defines m visiting done (name :: rest) (.error (.noFields name))
  | inside {visiting done name rest d flaw} (hd : IsPending m done name d)
      (hvisiting : name ∉ visiting) (hfields : d.fields ≠ []) :
      Defines m (name :: visiting) done (containedStructs d) (.error flaw) →
      Defines m visiting done (name :: rest) (.error flaw)
  | defined {visiting done done' name rest d r} (hd : IsPending m done name d)
      (hvisiting : name ∉ visiting) (hfields : d.fields ≠ []) :
      Defines m (name :: visiting) done (containedStructs d) (.ok done') →
      Defines m visiting (done' ++ [d]) rest r →
      Defines m visiting done (name :: rest) r

namespace Defines

variable {m : Module} {visiting names rest : List String} {done done' : List StructDef}
  {name : String} {r : Except EmitFlaw (List StructDef)} {flaw : EmitFlaw}

theorem cons_of_ok (h : Defines m visiting done [name] (.ok done'))
    (hrest : Defines m visiting done' rest r) : Defines m visiting done (name :: rest) r := by
  cases h with
  | settled hd hsettled hnil =>
    cases hnil
    exact settled hd hsettled hrest
  | defined hd hvisiting hfields hinside hnil =>
    cases hnil
    exact defined hd hvisiting hfields hinside hrest

theorem cons_of_error (h : Defines m visiting done [name] (.error flaw)) :
    Defines m visiting done (name :: rest) (.error flaw) := by
  cases h with
  | unknown hname => exact unknown hname
  | settled _ _ hnil => cases hnil
  | cyclic hd hvisiting => exact cyclic hd hvisiting
  | empty hd hvisiting hfields => exact empty hd hvisiting hfields
  | inside hd hvisiting hfields hinside => exact inside hd hvisiting hfields hinside
  | defined _ _ _ _ hnil => cases hnil

end Defines

/-! ### The walk ends -/

section

variable {ε : Type} {flawOf : ε → EmitFlaw} {m : Module} {visiting : List String}
  {done : List StructDef} {n : Needs}

/-- The run has the outcome of a walk. -/
def HasOutcome (flawOf : ε → EmitFlaw) (x : StateT Needs (Except ε) Defined) (n : Needs) :
    Except EmitFlaw (List StructDef) → Prop
  | .ok done => ∃ n', Gives x n (done.map definedAs) n'
  | .error flaw => ∃ e, x.run n = .error e ∧ flawOf e = flaw

/-- A run goes on with the outcome of its first step. -/
theorem hasOutcome_bind {x : StateT Needs (Except ε) Defined}
    {f : Defined → StateT Needs (Except ε) Defined} {n' : Needs}
    {r : Except EmitFlaw (List StructDef)} (hx : Gives x n (done.map definedAs) n')
    (h : HasOutcome flawOf (f (done.map definedAs)) n' r) : HasOutcome flawOf (x >>= f) n r := by
  cases r with
  | ok done' =>
    obtain ⟨n'', hf⟩ := h
    exact ⟨n'', gives_bind.mpr ⟨_, n', hx, hf⟩⟩
  | error flaw =>
    obtain ⟨e, hf, he⟩ := h
    exact ⟨e, (run_bind_of_gives hx).trans hf, he⟩

theorem hasOutcome_bind_error {x : StateT Needs (Except ε) Defined}
    {f : Defined → StateT Needs (Except ε) Defined}
    (h : HasOutcome flawOf x n (.error flaw)) : HasOutcome flawOf (x >>= f) n (.error flaw) := by
  obtain ⟨e, hx, he⟩ := h
  exact ⟨e, run_bind_of_error hx, he⟩

/-- If each step is a walk over one name, a loop is a walk over all of them. -/
theorem defines_foldlM {α : Type} {nameOf : α → String}
    {step : Defined → α → StateT Needs (Except ε) Defined} {items : List α} {names : List String}
    (hitems : items.map nameOf = names)
    (hstep : ∀ a ∈ items, ∀ done n, ∃ r, Defines m visiting done [nameOf a] r ∧
      HasOutcome flawOf (step (done.map definedAs) a) n r) (done : List StructDef) (n : Needs) :
    ∃ r, Defines m visiting done names r ∧
      HasOutcome flawOf (items.foldlM step (done.map definedAs)) n r := by
  subst hitems
  induction items generalizing done n with
  | nil => exact ⟨.ok done, .nil, n, rfl⟩
  | cons a items ih =>
    obtain ⟨r, hr, hrun⟩ := hstep a mem_cons_self done n
    rw [foldlM_cons]
    cases r with
    | error flaw => exact ⟨.error flaw, hr.cons_of_error, hasOutcome_bind_error hrun⟩
    | ok done' =>
      obtain ⟨n', hgives⟩ := hrun
      obtain ⟨r, hrest, hloop⟩ := ih (fun b hb => hstep b (mem_cons_of_mem a hb)) done' n'
      exact ⟨r, hr.cons_of_ok hrest, hasOutcome_bind hgives hloop⟩

/-- The fields are declared one by one, with those before them in the accumulator. -/
theorem exists_gives_mapIdxM_go (ts : List Ty) (acc : Array (Declaration String)) (n : Needs) :
    ∃ n', Gives (List.mapIdxM.go (fun i t => Emit.declare [] t (fieldName i)) ts acc) n
      (acc.toList ++ ts.mapIdx fun i t => declarationOf [] t (fieldName (acc.size + i))) n' := by
  induction ts generalizing acc n with
  | nil => exact ⟨n, by simp [List.mapIdxM.go]⟩
  | cons t ts ih =>
    obtain ⟨n₁, hdeclare⟩ := exists_gives_declare [] t (fieldName acc.size) n
    obtain ⟨n₂, hrest⟩ := ih (acc.push (declarationOf [] t (fieldName acc.size))) n₁
    refine ⟨n₂, gives_bind.mpr ⟨_, n₁, hdeclare, ?_⟩⟩
    simpa [mapIdx_cons, Nat.add_assoc, Nat.add_comm 1] using hrest

theorem exists_gives_fields (d : StructDef) (n : Needs) :
    ∃ n', Gives (d.fields.mapIdxM fun i t => Emit.declare [] t (fieldName i)) n
      (definitionOf d).fields n' := by
  simpa [List.mapIdxM, definitionOf] using exists_gives_mapIdxM_go d.fields #[] n

/-- A struct is defined once the walk over those it contains has succeeded. -/
theorem exists_outcome_of_contained {loop : Emit Defined}
    (hd : IsPending m done d.name d) (hvisiting : d.name ∉ visiting) (hfields : d.fields ≠ [])
    (hloop : ∃ r, Defines m (d.name :: visiting) done (containedStructs d) r ∧
      HasOutcome id loop n r) :
    ∃ r, Defines m visiting done [d.name] r ∧ HasOutcome id (do
      let done ← loop
      let fields ← d.fields.mapIdxM fun i t => Emit.declare [] t (fieldName i)
      return done ++ [(d.name, ⟨structTag d.name, fields, d.isPacked⟩)]) n r := by
  obtain ⟨r, hr, hrun⟩ := hloop
  cases r with
  | error flaw =>
    exact ⟨.error flaw, .inside hd hvisiting hfields hr, hasOutcome_bind_error hrun⟩
  | ok done' =>
    obtain ⟨n₁, hgives⟩ := hrun
    obtain ⟨n₂, hdeclared⟩ := exists_gives_fields d n₁
    refine ⟨.ok (done' ++ [d]), .defined hd hvisiting hfields hr .nil, n₂, ?_⟩
    rw [map_append]
    exact gives_bind.mpr ⟨_, n₁, hgives, gives_bind.mpr ⟨_, n₂, hdeclared, rfl⟩⟩

theorem lookup_definedAs_isSome :
    ((done.map definedAs).lookup name).isSome = true ↔ name ∈ done.map (·.name) := by
  simp only [lookup_isSome_iff, mem_map, beq_iff_eq]
  constructor
  · rintro ⟨_, ⟨d, hd, rfl⟩, hname⟩
    exact ⟨d, hd, hname.symm⟩
  · rintro ⟨d, hd, hname⟩
    exact ⟨definedAs d, ⟨d, hd, rfl⟩, hname.symm⟩

end

section

variable {m : Module}

/-- With names distinct, fuel for one more than all structs outlasts the walk: the structs on the
way to one differ, so there are no more of them than structs. -/
theorem defines_defineStruct (hnames : (m.structs.map (·.name)).Nodup) {fuel : Nat}
    {visiting : List String} (hd : d ∈ m.structs) (hvisiting : visiting.Nodup)
    (hsubset : visiting ⊆ m.structs.map (·.name))
    (hfuel : m.structs.length + 1 ≤ fuel + visiting.length) (done : List StructDef) (n : Needs) :
    ∃ r, Defines m visiting done [d.name] r ∧
      HasOutcome id (defineStruct m fuel visiting (done.map definedAs) d) n r := by
  induction fuel generalizing visiting d done n with
  | zero =>
    have hle := (subperm_of_subset hvisiting hsubset).length_le
    rw [length_map] at hle
    omega
  | succ fuel ih =>
    have hfound := struct?_of_mem hnames hd
    rw [defineStruct]
    -- the checks in their order: each that applies is one way for the walk to go on
    by_cases hbare : d.isOpaque = true
    · refine ⟨.ok done, .settled hfound (.inl hbare) .nil, n, ?_⟩
      simp [hbare]
    by_cases hdone : d.name ∈ done.map (·.name)
    · refine ⟨.ok done, .settled hfound (.inr hdone) .nil, n, ?_⟩
      simp [lookup_definedAs_isSome.mpr hdone]
    have hfull : d.isOpaque = false := by simpa using hbare
    have hopen : ((done.map definedAs).lookup d.name).isSome = false := by
      rw [← Bool.not_eq_true, lookup_definedAs_isSome]
      exact hdone
    simp only [hfull, hopen, Bool.or_self, Bool.false_eq_true, ↓reduceIte]
    have hpending : IsPending m done d.name d := ⟨hfound, hfull, hdone⟩
    by_cases hcycle : d.name ∈ visiting
    · refine ⟨_, .cyclic hpending hcycle, .containsItself d.name, ?_, rfl⟩
      simp only [contains_eq_mem, hcycle, decide_true, ↓reduceIte]
      exact run_bind_of_error rfl
    simp only [contains_eq_mem, hcycle, decide_false, Bool.false_eq_true, ↓reduceIte]
    by_cases hempty : d.fields = []
    · refine ⟨_, .empty hpending hcycle hempty, .noFields d.name, ?_, rfl⟩
      simp only [hempty, isEmpty_nil, ↓reduceIte]
      exact run_bind_of_error rfl
    have hsome : d.fields.isEmpty = false := by simpa using hempty
    simp only [hsome, Bool.false_eq_true, ↓reduceIte]
    apply exists_outcome_of_contained hpending hcycle hempty
    apply defines_foldlM (map_id _)
    intro inner _ done n
    cases hinner : m.struct? inner with
    | none => exact ⟨_, .unknown hinner, .unknownStruct inner, rfl, rfl⟩
    | some s =>
      obtain ⟨hs, rfl⟩ := struct?_eq_some hinner
      apply ih hs (nodup_cons.mpr ⟨hcycle, hvisiting⟩)
      · exact cons_subset.mpr ⟨mem_map_of_mem hd, hsubset⟩
      · rw [length_cons]
        omega

theorem hasOutcome_inEntity {step : Emit Defined} {n : Needs}
    {r : Except EmitFlaw (List StructDef)} (h : HasOutcome id step n r) :
    HasOutcome EmitError.flaw (inEntity name step) n r := by
  cases r with
  | ok done =>
    obtain ⟨n', hstep⟩ := h
    exact ⟨n', gives_inEntity.mpr hstep⟩
  | error flaw =>
    obtain ⟨e, hstep, rfl⟩ := h
    refine ⟨⟨name, e⟩, ?_, rfl⟩
    change (step.run n).mapError (EmitError.mk name) = .error ⟨name, e⟩
    rw [hstep]
    rfl

/-- The struct section is the walk over all structs of a module. -/
theorem defines_defineStructs (hnames : (m.structs.map (·.name)).Nodup) (n : Needs) :
    ∃ r, Defines m [] [] (m.structs.map (·.name)) r ∧
      HasOutcome EmitError.flaw (defineStructs m) n r := by
  refine defines_foldlM rfl ?_ [] n
  intro d hd done n
  obtain ⟨r, hr, hrun⟩ := defines_defineStruct hnames hd nodup_nil (nil_subset _) le_rfl done n
  exact ⟨r, hr, hasOutcome_inEntity hrun⟩

end

/-! ### What a walk defines -/

/-- The structs are of the module and not opaque, and each comes once, after those it contains. -/
inductive InOrder (m : Module) : List StructDef → Prop
  | nil : InOrder m []
  | append {ds : List StructDef} {d : StructDef} (hds : InOrder m ds) (hd : d ∈ m.structs)
      (hfull : d.isOpaque = false) (hnew : d.name ∉ ds.map (·.name))
      (hcontained : ∀ inner ∈ containedStructs d, inner ∈ ds.map (·.name)) :
      InOrder m (ds ++ [d])

namespace InOrder

variable {m : Module} {ds : List StructDef}

theorem nodup (h : InOrder m ds) : (ds.map (·.name)).Nodup := by
  induction h with
  | nil => exact nodup_nil
  | append _ _ _ hnew _ ih =>
    rw [map_append, map_singleton]
    exact nodup_append_comm.mp (nodup_cons.mpr ⟨hnew, ih⟩)

theorem mem (h : InOrder m ds) (hd : d ∈ ds) : d ∈ m.structs ∧ d.isOpaque = false := by
  induction h with
  | nil => cases hd
  | append _ hmem hfull _ _ ih =>
    rcases mem_append.mp hd with hd | hd
    · exact ih hd
    · rw [mem_singleton.mp hd]
      exact ⟨hmem, hfull⟩

theorem contained_before (h : InOrder m ds) {before after : List StructDef}
    (hds : ds = before ++ d :: after) {inner : String} (hinner : inner ∈ containedStructs d) :
    inner ∈ before.map (·.name) := by
  induction h generalizing after with
  | nil => simp at hds
  | append _ _ _ _ hcontained ih =>
    -- the struct is the last one, or stands in what was there before it
    rcases eq_nil_or_concat after with rfl | ⟨after, last, rfl⟩
    · obtain ⟨rfl, hlast⟩ := append_inj' hds rfl
      cases hlast
      exact hcontained inner hinner
    · rw [concat_eq_append, ← cons_append, ← append_assoc] at hds
      exact ih (append_inj' hds rfl).1

/-- What is defined contains no endless chain. -/
theorem acc (hnames : (m.structs.map (·.name)).Nodup) (h : InOrder m ds)
    (hname : name ∈ ds.map (·.name)) : Acc (Function.swap (Contains m)) name := by
  induction h generalizing name with
  | nil => cases hname
  | @append ds d _ hd _ _ hcontained ih =>
    rw [map_append, mem_append] at hname
    rcases hname with hname | hname
    · exact ih hname
    · obtain rfl : name = d.name := mem_singleton.mp hname
      constructor
      rintro inner ⟨d', hd', heq, -, hstores⟩
      rw [inj_on_of_nodup_map hnames hd' hd heq] at hstores
      exact ih (hcontained inner (mem_containedStructs.mpr hstores))

end InOrder

section

variable {m : Module} {visiting names : List String} {done : List StructDef}
  {r : Except EmitFlaw (List StructDef)}

/-- A walk that succeeds only adds structs, none of them on the way to it, and after it every name
it was to define is defined unless it is opaque. -/
theorem Defines.inOrder (hm : StructsKnown m) (h : Defines m visiting done names r)
    (hdone : InOrder m done) {done' : List StructDef} (hr : r = .ok done') :
    InOrder m done' ∧ (∃ added, done' = done ++ added ∧ ∀ s ∈ added, s.name ∉ visiting) ∧
      ∀ name ∈ names, ∀ d, m.struct? name = some d → d.isOpaque = false →
        name ∈ done'.map (·.name) := by
  induction h generalizing done' with
  | nil =>
    cases hr
    refine ⟨hdone, ⟨[], by simp, ?_⟩, ?_⟩
    · intro s hs
      cases hs
    · intro name hname
      cases hname
  | unknown => cases hr
  | @settled _ done name _ d _ hd hsettled _ ih =>
    obtain ⟨horder, ⟨added, rfl, hadded⟩, hrest⟩ := ih hdone hr
    refine ⟨horder, ⟨added, rfl, hadded⟩, forall_mem_cons.mpr ⟨?_, hrest⟩⟩
    intro d' hd' hfull
    rw [hd] at hd'
    cases hd'
    rw [hfull] at hsettled
    rw [map_append]
    exact mem_append_left _ (hsettled.resolve_left Bool.false_ne_true)
  | cyclic => cases hr
  | empty => cases hr
  | inside => cases hr
  | @defined visiting done inside name _ d _ hd hvisiting _ _ _ ihinside ihrest =>
    obtain ⟨hmem, rfl⟩ := struct?_eq_some hd.found
    obtain ⟨hinside, ⟨added, rfl, hadded⟩, hcontained⟩ := ihinside hdone rfl
    have hlast : InOrder m (done ++ added ++ [d]) := by
      apply InOrder.append hinside hmem hd.full
      · rw [map_append, mem_append]
        rintro (hold | hold)
        · exact hd.undefined hold
        · obtain ⟨s, hs, hname⟩ := mem_map.mp hold
          exact hadded s hs (hname ▸ mem_cons_self)
      · intro inner hinner
        obtain ⟨s, hs, rfl, hsfull⟩ := hm.contained d.name inner
          ⟨d, hmem, rfl, hd.full, mem_containedStructs.mp hinner⟩
        exact hcontained s.name hinner s (struct?_of_mem hm.names hs) hsfull
    obtain ⟨horder, ⟨more, rfl, hmore⟩, hrest⟩ := ihrest hlast hr
    refine ⟨horder, ⟨added ++ d :: more, by simp, ?_⟩, forall_mem_cons.mpr ⟨?_, hrest⟩⟩
    · intro s hs
      rcases mem_append.mp hs with hs | hs
      · exact fun hin => hadded s hs (mem_cons_of_mem _ hin)
      · rcases mem_cons.mp hs with rfl | hs
        · exact hvisiting
        · exact hmore s hs
    · intro _ _ _
      simp

/-- A walk fails only at a struct that contains itself, if every struct on the way to it contains
all that is still to define. -/
theorem Defines.containsItself (hm : StructsKnown m) (h : Defines m visiting done names r)
    (hknown : ∀ name ∈ names, ∃ s ∈ m.structs, s.name = name)
    (hway : ∀ outer ∈ visiting, ∀ name ∈ names, TransGen (Contains m) outer name)
    (hr : r = .error flaw) :
    ∃ name, flaw = .containsItself name ∧ TransGen (Contains m) name name := by
  induction h with
  | nil => cases hr
  | @unknown _ _ name _ hname =>
    obtain ⟨s, hs, rfl⟩ := hknown name mem_cons_self
    rw [struct?_of_mem hm.names hs] at hname
    cases hname
  | settled _ _ _ ih =>
    apply ih _ _ hr
    · exact (forall_mem_cons.mp hknown).2
    · exact fun outer houter => (forall_mem_cons.mp (hway outer houter)).2
  | @cyclic _ _ name _ _ _ hvisiting =>
    cases hr
    exact ⟨name, rfl, hway name hvisiting name mem_cons_self⟩
  | empty hd _ hfields =>
    exact absurd hfields (hm.fields _ (struct?_eq_some hd.found).1 hd.full)
  | @inside _ _ name _ d _ hd _ _ _ ih =>
    obtain ⟨hmem, rfl⟩ := struct?_eq_some hd.found
    have hcontains : ∀ inner ∈ containedStructs d, Contains m d.name inner :=
      fun inner hinner => ⟨d, hmem, rfl, hd.full, mem_containedStructs.mp hinner⟩
    apply ih _ _ hr
    · intro inner hinner
      obtain ⟨s, hs, hname, -⟩ := hm.contained d.name inner (hcontains inner hinner)
      exact ⟨s, hs, hname⟩
    · intro outer houter inner hinner
      rcases mem_cons.mp houter with rfl | houter
      · exact .single (hcontains inner hinner)
      · exact (hway outer houter d.name mem_cons_self).tail (hcontains inner hinner)
  | defined _ _ _ _ _ _ ih =>
    apply ih _ _ hr
    · exact (forall_mem_cons.mp hknown).2
    · exact fun outer houter => (forall_mem_cons.mp (hway outer houter)).2

/-- A walk over all structs that succeeds has defined each that is not opaque. -/
theorem perm_of_defines_all (hm : StructsKnown m) {ds : List StructDef}
    (h : Defines m [] [] (m.structs.map (·.name)) (.ok ds)) :
    ds ~ m.structs.filter fun d => !d.isOpaque := by
  obtain ⟨horder, -, hall⟩ := h.inOrder hm .nil rfl
  have hnodup := (List.Nodup.of_map _ hm.names).filter fun d : StructDef => !d.isOpaque
  rw [perm_ext_iff_of_nodup (List.Nodup.of_map _ horder.nodup) hnodup]
  intro d
  rw [mem_filter, Bool.not_eq_true']
  constructor
  · exact horder.mem
  · rintro ⟨hd, hfull⟩
    have hname := hall d.name (mem_map_of_mem hd) d (struct?_of_mem hm.names hd) hfull
    obtain ⟨s, hs, heq⟩ := mem_map.mp hname
    rwa [← inj_on_of_nodup_map hm.names (horder.mem hs).1 hd heq]

/-- After a walk that succeeds no chain of containment is endless. -/
theorem acyclic_of_defines_all (hm : StructsKnown m) {ds : List StructDef}
    (h : Defines m [] [] (m.structs.map (·.name)) (.ok ds)) : ContainmentAcyclic m := by
  obtain ⟨horder, -, hall⟩ := h.inOrder hm .nil rfl
  have hwf : WellFounded (Function.swap (Contains m)) := by
    constructor
    intro name
    constructor
    rintro inner hcontains
    obtain ⟨s, hs, rfl, hfull⟩ := hm.contained name inner hcontains
    apply horder.acc hm.names
    exact hall s.name (mem_map_of_mem hs) s (struct?_of_mem hm.names hs) hfull
  intro name hcycle
  exact hwf.transGen.irrefl.irrefl name (transGen_swap.mpr hcycle)

theorem cycle_of_defines_all (hm : StructsKnown m)
    (h : Defines m [] [] (m.structs.map (·.name)) (.error flaw)) :
    ∃ name, flaw = .containsItself name ∧ TransGen (Contains m) name name := by
  apply h.containsItself hm _ _ rfl
  · intro name hname
    exact mem_map.mp hname
  · intro outer houter
    cases houter

end

/-! ### Source files -/

section

variable {w : Writer} {m : Module}

theorem structs_of_sourceFile {file : SourceFile} (h : w.sourceFile m = .ok file) :
    ∃ done needs, Gives (defineStructs m) {} done needs ∧ file.structs = done.map (·.2) := by
  simp only [Writer.sourceFile, except_bind_ok] at h
  obtain ⟨⟨⟨done, prototypes, globals, functions⟩, needs⟩, hparts, hfile⟩ := h
  cases hfile
  change Gives (w.parts m) {} (done, prototypes, globals, functions) needs at hparts
  obtain ⟨defined, n, hdefined, hparts⟩ := gives_bind.mp hparts
  simp only [gives_bind, gives_pure] at hparts
  obtain ⟨_, _, -, _, _, -, _, _, -, hall, -⟩ := hparts
  cases hall
  exact ⟨done, n, hdefined, rfl⟩

theorem sourceFile_of_structs_error {e : EmitError} (h : (defineStructs m).run {} = .error e) :
    w.sourceFile m = .error e := by
  have hparts : (w.parts m).run {} = .error e := run_bind_of_error h
  rw [Writer.sourceFile, hparts]
  rfl

/-- Where names are distinct, no struct lacks fields and what is contained is known, the walk over
the structs of a module ends, and it succeeds exactly if no struct contains itself. Then every
struct that is not opaque is defined once, after all that it stores by value, and source files have
these definitions in this order. Otherwise the error names a struct that contains itself, and there
is no source file. -/
theorem structs_defined_iff_acyclic {m : Module} (hm : StructsKnown m) :
    (∃ r, Defines m [] [] (m.structs.map (·.name)) r ∧
      HasOutcome EmitError.flaw (defineStructs m) {} r) ∧
    ((∃ done needs, Gives (defineStructs m) {} done needs) ↔ ContainmentAcyclic m) ∧
    (∀ done needs, Gives (defineStructs m) {} done needs →
      ∃ ds, done = ds.map definedAs ∧ ds ~ m.structs.filter (fun d => !d.isOpaque) ∧
        (∀ before d after, ds = before ++ d :: after → ∀ t ∈ d.fields, ∀ inner, Stores t inner →
          inner ∈ before.map (·.name)) ∧
        ∀ (w : Writer) file, w.sourceFile m = .ok file → file.structs = ds.map definitionOf) ∧
    (¬ ContainmentAcyclic m → ∃ entity name, TransGen (Contains m) name name ∧
      (defineStructs m).run {} = .error ⟨entity, .containsItself name⟩ ∧
      ∀ w : Writer, w.sourceFile m = .error ⟨entity, .containsItself name⟩) := by
  obtain ⟨r, hwalk, hrun⟩ := defines_defineStructs hm.names {}
  refine ⟨⟨r, hwalk, hrun⟩, ?_⟩
  cases r with
  | ok ds =>
    obtain ⟨needs, hgives⟩ := hrun
    have hacyclic := acyclic_of_defines_all hm hwalk
    refine ⟨⟨fun _ => hacyclic, fun _ => ⟨_, needs, hgives⟩⟩, ?_, fun h => absurd hacyclic h⟩
    intro done needs' hdone
    -- a run gives one value, so what holds of the walk holds of every run
    cases hgives.symm.trans hdone
    refine ⟨ds, rfl, perm_of_defines_all hm hwalk, ?_, ?_⟩
    · intro before d after hds t ht inner hstores
      exact (hwalk.inOrder hm .nil rfl).1.contained_before hds
        (mem_containedStructs.mpr ⟨t, ht, hstores⟩)
    · intro w file hfile
      obtain ⟨done, needs', hdone, hstructs⟩ := structs_of_sourceFile hfile
      cases hgives.symm.trans hdone
      rw [hstructs, List.map_map]
      rfl
  | error flaw =>
    obtain ⟨⟨entity, flaw⟩, herror, rfl⟩ := hrun
    obtain ⟨name, hflaw, hcycle⟩ := cycle_of_defines_all hm hwalk
    obtain rfl : flaw = .containsItself name := hflaw
    have hfails : ∀ done needs, ¬ Gives (defineStructs m) {} done needs := by
      intro done needs hdone
      cases herror.symm.trans hdone
    refine ⟨⟨?_, fun h => absurd hcycle (h name)⟩, ?_, fun _ => ⟨entity, name, hcycle, herror, ?_⟩⟩
    · rintro ⟨done, needs, hdone⟩
      exact absurd hdone (hfails done needs)
    · intro done needs hdone
      exact absurd hdone (hfails done needs)
    · intro w
      exact sourceFile_of_structs_error herror

end

/-- A list of nodes: two ways lead to a leaf, one through an array, and the list refers to itself
behind a pointer only. -/
def nodes : Module where
  name := "m"
  structs := [
    ⟨"list", [.struct "node", .ptr (.struct "list"), .ptr (.struct "handle")], false, false⟩,
    ⟨"node", [.array 2 (.struct "pair"), .struct "leaf"], true, false⟩,
    ⟨"handle", [], false, true⟩,
    ⟨"pair", [.struct "leaf", .struct "leaf"], false, false⟩,
    ⟨"leaf", [.int .w32], false, false⟩]
  globals := []
  functions := []

/-- Two structs contain each other, and a third comes to them. -/
def entangled : Module where
  name := "m"
  structs := [
    ⟨"a", [.int .w8, .array 2 (.struct "b")], false, false⟩,
    ⟨"b", [.struct "c"], false, false⟩,
    ⟨"c", [.array 3 (.array 4 (.struct "b"))], false, false⟩]
  globals := []
  functions := []

theorem structs_defined_iff_acyclic_nodes :
    StructsKnown nodes ∧ ContainmentAcyclic nodes ∧
      (∃ file, hostWriter.sourceFile nodes = .ok file ∧
        file.structs.map (·.tag) = ["leaf", "pair", "node", "list"]) ∧
    StructsKnown entangled ∧ ¬ ContainmentAcyclic entangled ∧
      hostWriter.sourceFile entangled = .error ⟨"a", .containsItself "b"⟩ := by
  have hnodes : StructsKnown nodes := by decide
  have hentangled : StructsKnown entangled := by decide
  have hcyclic : ¬ ContainmentAcyclic entangled := by
    intro hacyclic
    obtain ⟨done, needs, hdone⟩ := (structs_defined_iff_acyclic hentangled).2.1.mpr hacyclic
    cases hdone
  obtain ⟨entity, name, -, hrun, hfile⟩ := (structs_defined_iff_acyclic hentangled).2.2.2 hcyclic
  cases hrun
  refine ⟨hnodes, (structs_defined_iff_acyclic hnodes).2.1.mp ⟨_, _, rfl⟩, ⟨_, rfl, ?_⟩,
    hentangled, hcyclic, hfile hostWriter⟩
  decide +kernel

end Offload.C
