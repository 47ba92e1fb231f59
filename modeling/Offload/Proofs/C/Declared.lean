import Offload.C.SourceFile
import Offload.Proofs.C.Name
import Offload.Proofs.C.Phi
import Offload.Proofs.Compiled.Elimination
import Mathlib.Data.List.Perm.Basic
import Mathlib.Data.List.ReduceOption

/-!
# Identifiers that a source file declares

The variables of a function are those of its parameters and results, with a temporary for each phi
and a slot for each allocation. They are distinct if no two of these names are alike, and the same
goes for labels, symbols and struct tags. A verified module has distinct names, but they may be
alike.
-/

namespace Offload.C

open Offload.Compiled List
open scoped List

/-! ### Declarations -/

/-- What is declared. -/
def Declarator.declared {α : Type} : Declarator α → α
  | .entity a => a
  | .pointer d | .array d _ | .paren d => d.declared

def Declaration.declared {α : Type} (d : Declaration α) : α := d.declarator.declared

theorem declared_declaratorOf {α : Type} (t : Ty) (d : Declarator α) :
    (declaratorOf t d).2.declared = d.declared := by
  fun_induction declaratorOf t d <;> simp_all [Declarator.declared]

@[simp] theorem declared_declarationOf {α : Type} (qualifiers : List Qualifier) (t : Ty) (a : α) :
    (declarationOf qualifiers t a).declared = a :=
  declared_declaratorOf t (.entity a)

/-- The variables of a function: parameters, then locals. -/
def FunctionDefinition.variables (fd : FunctionDefinition) : List String :=
  fd.prototype.declared.params.map (·.declared) ++ fd.locals.map (·.declared)

def FunctionDefinition.labels (fd : FunctionDefinition) : List String := fd.blocks.map (·.label)

section

variable {w : Writer} {f : Function} {n n' : Needs}

theorem gives_declare {α : Type} {qualifiers : List Qualifier} {t : Ty} {a : α}
    {d : Declaration α} (h : Gives (Emit.declare qualifiers t a) n d n') :
    d = declarationOf qualifiers t a := by
  simp only [Emit.declare] at h
  split at h
  · simp only [gives_bind, gives_modify, gives_pure] at h
    obtain ⟨-, m, -, rfl, -⟩ := h
    rfl
  · exact (gives_pure.mp h).1

/-- A declaration never fails. -/
theorem exists_gives_declare {α : Type} (qualifiers : List Qualifier) (t : Ty) (a : α) (n : Needs) :
    ∃ n', Gives (Emit.declare qualifiers t a) n (declarationOf qualifiers t a) n' := by
  simp only [Emit.declare]
  split
  · exact ⟨_, rfl⟩
  · exact ⟨_, rfl⟩

theorem gives_signature {p : Prototype} (h : Gives (w.signature f) n p n') :
    p.declared.name = symbolName f.name ∧
      p.declared.params.map (·.declared) = f.params.map fun q => localName q.name := by
  simp only [Writer.signature] at h
  split at h
  · rw [gives_bind] at h
    obtain ⟨_, _, hfail, -⟩ := h
    exact absurd hfail not_gives_throw
  · simp only [gives_bind] at h
    obtain ⟨params, m, hparams, hp⟩ := h
    rw [gives_declare hp, declared_declarationOf]
    refine ⟨rfl, (map_eq_map_of_forall₂ ((gives_mapM hparams).imp ?_)).symm⟩
    rintro q v ⟨m₁, m₂, hv⟩
    rw [gives_declare hv, declared_declarationOf]

/-- The variables of an instruction: a slot for an allocation, its result, a phi's temporary. -/
def variablesOf (i : Instruction) : List String :=
  (i.slotDest?.map slotName).toList ++ (i.dest?.map localName).toList ++
    (i.phiDest?.map phiName).toList

theorem gives_localsOf {s : Scope} {i : Instruction} {vs : List Variable}
    (h : Gives (Writer.localsOf s i) n vs n') : vs.map (·.declared) = variablesOf i := by
  -- most instructions with a result declare it and nothing else
  have hresult : ∀ {qualifiers t dest}, Gives (do
      let slot ← pure []
      let result ← Emit.declare qualifiers t (localName dest)
      return slot ++ [result]) n vs n' → vs.map (·.declared) = [localName dest] := by
    simp only [gives_bind, gives_pure]
    rintro qualifiers t dest ⟨slot, k, ⟨rfl, -⟩, result, k', hdeclare, rfl, -⟩
    simp [gives_declare hdeclare]
  cases i with
  | alloca dest t =>
    simp only [Writer.localsOf, Instruction.dest?, Instruction.resultType?, gives_bind, gives_map,
      gives_pure] at h
    obtain ⟨slot, m, ⟨d, hd, rfl⟩, result, m', hdeclare, rfl, -⟩ := h
    rw [gives_declare hd, gives_declare hdeclare]
    simp [List.singleton, variablesOf, Instruction.slotDest?, Instruction.dest?,
      Instruction.phiDest?]
  | phi dest t incoming =>
    simp only [Writer.localsOf, Instruction.dest?, Instruction.resultType?, gives_bind,
      gives_pure] at h
    obtain ⟨slot, m, ⟨rfl, -⟩, result, m₁, hdeclare, temporary, m₂, htemporary, rfl, -⟩ := h
    rw [gives_declare hdeclare, gives_declare htemporary]
    simp [variablesOf, Instruction.slotDest?, Instruction.dest?, Instruction.phiDest?]
  | store t v pointer =>
    rw [(gives_pure.mp h).1]
    rfl
  | call dest t callee args =>
    cases dest with
    | none =>
      rw [(gives_pure.mp h).1]
      rfl
    | some dest => exact hresult h
  | _ => exact hresult h

theorem gives_function_names {m : Module} {fd : FunctionDefinition}
    (h : Gives (w.function m f) n fd n') :
    fd.prototype.declared.name = symbolName f.name ∧
      fd.variables = f.params.map (fun q => localName q.name) ++
        f.instructions.flatMap variablesOf ∧
      fd.labels = f.blocks.map fun b => blockName b.label := by
  have hblocks := gives_function h
  simp only [Writer.function, gives_bind, gives_pure] at h
  obtain ⟨prototype, k₁, hprototype, locals, k₂, hlocals, blocks, k₃, -, rfl, -⟩ := h
  obtain ⟨hname, hparams⟩ := gives_signature hprototype
  refine ⟨hname, ?_, ?_⟩
  · have hlocalNames : f.instructions.map variablesOf =
        locals.map fun vs => vs.map (·.declared) := by
      refine map_eq_map_of_forall₂ ((gives_mapM hlocals).imp ?_)
      rintro i vs ⟨m₁, m₂, hvs⟩
      exact (gives_localsOf hvs).symm
    rw [FunctionDefinition.variables, hparams, map_flatten, ← hlocalNames, flatMap_def]
  · refine (map_eq_map_of_forall₂ (hblocks.imp ?_)).symm
    rintro b written ⟨m₁, m₂, hwritten⟩
    exact (gives_block hwritten).1.symm

end

/-! ### Variables of a function -/

/-- The names whose phis have a temporary. -/
def phiDests (f : Function) : List String := f.instructions.filterMap Instruction.phiDest?

/-- The names whose allocations have a slot. -/
def slotDests (f : Function) : List String := f.instructions.filterMap Instruction.slotDest?

/-- No two definitions are alike, and none is like the name of a temporary or a slot. -/
structure VariablesApart (f : Function) : Prop where
  definitions : Apart f.definitions
  temporaries : ∀ x ∈ f.definitions, ∀ dest ∈ phiDests f, ¬ Alike x (dest ++ "__phi")
  slots : ∀ x ∈ f.definitions, ∀ dest ∈ slotDests f, ¬ Alike x (dest ++ "__slot")

/-- The identifiers of a function's variables. -/
def variableNames (f : Function) : List String :=
  f.definitions.map localName ++ ((phiDests f).map phiName ++ (slotDests f).map slotName)

section

variable {f : Function}

theorem flatMap_toList_map {g : Instruction → Option String} (h : String → String)
    (is : List Instruction) :
    (is.flatMap fun i => ((g i).map h).toList) = (is.filterMap g).map h := by
  rw [← filterMap_eq_flatMap_toList, ← map_filterMap]

/-- The order differs: each instruction has its variables declared at once. -/
theorem variables_perm (f : Function) :
    (f.params.map (fun q => localName q.name) ++ f.instructions.flatMap variablesOf).Perm
      (variableNames f) := by
  have hnames : variableNames f = f.params.map (fun q => localName q.name) ++
      ((f.instructions.filterMap Instruction.dest?).map localName ++
        ((phiDests f).map phiName ++ (slotDests f).map slotName)) := by
    rw [variableNames, Function.definitions, map_append, map_map, append_assoc]
    rfl
  rw [hnames]
  refine List.Perm.append_left _ ?_
  calc f.instructions.flatMap variablesOf
    _ ~ (f.instructions.flatMap fun i =>
          (i.slotDest?.map slotName).toList ++ (i.dest?.map localName).toList) ++
        (f.instructions.flatMap fun i => (i.phiDest?.map phiName).toList) :=
      (flatMap_append_perm _ _ _).symm
    _ ~ ((f.instructions.flatMap fun i => (i.slotDest?.map slotName).toList) ++
          (f.instructions.flatMap fun i => (i.dest?.map localName).toList)) ++
        (f.instructions.flatMap fun i => (i.phiDest?.map phiName).toList) :=
      (flatMap_append_perm _ _ _).symm.append_right _
    _ = (slotDests f).map slotName ++ ((f.instructions.filterMap Instruction.dest?).map localName ++
        (phiDests f).map phiName) := by
      rw [flatMap_toList_map, flatMap_toList_map, flatMap_toList_map, append_assoc]
      rfl
    _ ~ ((f.instructions.filterMap Instruction.dest?).map localName ++
        (phiDests f).map phiName) ++ (slotDests f).map slotName := perm_append_comm
    _ = (f.instructions.filterMap Instruction.dest?).map localName ++
        ((phiDests f).map phiName ++ (slotDests f).map slotName) := append_assoc _ _ _

theorem filterMap_sublist_of_imp {g h : Instruction → Option String}
    (hgh : ∀ i name, g i = some name → h i = some name) (is : List Instruction) :
    (is.filterMap g).Sublist (is.filterMap h) := by
  induction is with
  | nil => exact .slnil
  | cons i is ih =>
    cases hg : g i with
    | none =>
      rw [filterMap_cons_none hg]
      cases hh : h i with
      | none => rwa [filterMap_cons_none hh]
      | some name =>
        rw [filterMap_cons_some hh]
        exact ih.cons name
    | some name =>
      rw [filterMap_cons_some hg, filterMap_cons_some (hgh i name hg)]
      exact ih.cons_cons name

theorem phiDests_sublist (f : Function) : (phiDests f).Sublist f.definitions := by
  refine (filterMap_sublist_of_imp ?_ _).trans (sublist_append_right _ _)
  intro i name h
  cases i <;> simp_all [Instruction.phiDest?, Instruction.dest?]

theorem slotDests_sublist (f : Function) : (slotDests f).Sublist f.definitions := by
  refine (filterMap_sublist_of_imp ?_ _).trans (sublist_append_right _ _)
  intro i name h
  cases i <;> simp_all [Instruction.slotDest?, Instruction.dest?]

/-- Distinct names have distinct identifiers if they are apart. -/
theorem nodup_map_iff_apart {ident : String → String}
    (hident : ∀ {x y}, ident x = ident y ↔ Alike x y) {names : List String} (h : names.Nodup) :
    (names.map ident).Nodup ↔ Apart names := by
  rw [nodup_map_iff_inj_on h]
  simp only [hident]
  rfl

theorem Apart.of_subset {names names' : List String} (h : Apart names) (hs : names' ⊆ names) :
    Apart names' :=
  fun x hx y hy => h x (hs hx) y (hs hy)

theorem phiName_eq_iff {x y : String} : phiName x = phiName y ↔ Alike x y := by
  rw [phiName_eq, phiName_eq, localName_eq_iff, alike_append_right]

theorem slotName_eq_iff {x y : String} : slotName x = slotName y ↔ Alike x y := by
  rw [slotName_eq, slotName_eq, localName_eq_iff, alike_append_right]

theorem disjoint_phiName_slotName (xs ys : List String) :
    List.Disjoint (xs.map phiName) (ys.map slotName) := by
  intro name hx hy
  obtain ⟨x, -, rfl⟩ := mem_map.mp hx
  obtain ⟨y, -, hxy⟩ := mem_map.mp hy
  rw [phiName_eq, slotName_eq, eq_comm, localName_eq_iff] at hxy
  exact not_alike_phi_slot x y hxy

theorem disjoint_localName_iff {ident : String → String} {tail : String}
    (hident : ∀ y, ident y = localName (y ++ tail)) {xs ys : List String} :
    List.Disjoint (xs.map localName) (ys.map ident) ↔
      ∀ x ∈ xs, ∀ y ∈ ys, ¬ Alike x (y ++ tail) := by
  constructor
  · intro h x hx y hy halike
    rw [← localName_eq_iff, ← hident] at halike
    exact h (mem_map_of_mem hx) (halike ▸ mem_map_of_mem hy)
  · intro h name hlocal hother
    obtain ⟨x, hx, rfl⟩ := mem_map.mp hlocal
    obtain ⟨y, hy, hxy⟩ := mem_map.mp hother
    rw [hident, eq_comm, localName_eq_iff] at hxy
    exact h x hx y hy hxy

theorem nodup_variableNames_iff (h : f.definitions.Nodup) :
    (variableNames f).Nodup ↔ VariablesApart f := by
  have hphis := nodup_map_iff_apart phiName_eq_iff ((phiDests_sublist f).nodup h)
  have hslots := nodup_map_iff_apart slotName_eq_iff ((slotDests_sublist f).nodup h)
  rw [variableNames, nodup_append', nodup_append', disjoint_append_right,
    nodup_map_iff_apart localName_eq_iff h, hphis, hslots, disjoint_localName_iff phiName_eq,
    disjoint_localName_iff slotName_eq]
  constructor
  · rintro ⟨hdefinitions, -, htemporaries, hslots⟩
    exact ⟨hdefinitions, htemporaries, hslots⟩
  · intro ha
    refine ⟨ha.definitions, ⟨?_, ?_, disjoint_phiName_slotName _ _⟩, ha.temporaries, ha.slots⟩
    · exact ha.definitions.of_subset (phiDests_sublist f).subset
    · exact ha.definitions.of_subset (slotDests_sublist f).subset

end

/-! ### Source files -/

section

variable {w : Writer} {m : Module} {n n' : Needs}

theorem gives_inEntity {α : Type} {name : String} {step : Emit α} {a : α} :
    Gives (inEntity name step) n a n' ↔ Gives step n a n' := by
  unfold Gives inEntity
  exact mapError_ok

theorem gives_prototype? {f : Function} {p : Prototype}
    (h : Gives (w.prototype? f) n (some p) n') : p.declared.name = symbolName f.name := by
  have hsome : Gives (do return some (← w.signature f)) n (some p) n' →
      p.declared.name = symbolName f.name := by
    simp only [gives_bind, gives_pure]
    rintro ⟨p', k, hp', hp, -⟩
    cases hp
    exact (gives_signature hp').1
  unfold Writer.prototype? at h
  split at h
  · exact absurd (gives_pure.mp h).1 (by simp)
  · dsimp only at h
    split at h
    · split at h
      · exact absurd (gives_pure.mp h).1 (by simp)
      · split at h
        · split at h <;> simp at h
        · exact hsome h
    · exact hsome h

theorem gives_globalVariable {g : Global} {v : GlobalVariable}
    (h : Gives (w.globalVariable g) n v n') : v.declaration.declared = symbolName g.name := by
  obtain ⟨declaration, k, hdeclare, h⟩ := gives_bind.mp h
  have hdeclared : declaration.declared = symbolName g.name := by
    rw [gives_declare hdeclare, declared_declarationOf]
  cases hinit : g.init with
  | none =>
    simp only [hinit, gives_pure] at h
    rw [h.1]
    exact hdeclared
  | some init =>
    simp only [hinit, gives_bind, gives_pure] at h
    obtain ⟨value, k', -, rfl, -⟩ := h
    exact hdeclared

/-- What a source file has for the functions, globals and structs of its module. -/
structure Declares (w : Writer) (m : Module) (file : SourceFile) : Prop where
  functions : List.Forall₂ (fun f fd => fd.prototype.declared.name = symbolName f.name ∧
      fd.variables ~ variableNames f ∧ fd.labels = f.blocks.map fun b => blockName b.label)
    (m.functions.filter fun f => !f.isDeclaration) file.functions
  globals : file.globals.map (·.declaration.declared) = m.globals.map fun g => symbolName g.name
  prototypes : ∀ p ∈ file.prototypes, (∃ f ∈ m.functions, p.declared.name = symbolName f.name) ∨
    ∃ trap, w.options.trapFunction = some trap ∧ p.declared.name = symbolName trap
  tags : file.tags = m.structs.map fun d => structTag d.name

theorem declares_of_sourceFile {file : SourceFile} (h : w.sourceFile m = .ok file) :
    Declares w m file := by
  simp only [Writer.sourceFile, except_bind_ok] at h
  obtain ⟨⟨⟨defined, prototypes, globals, functions⟩, needs⟩, hparts, hfile⟩ := h
  cases hfile
  change Gives (w.parts m) {} (defined, prototypes, globals, functions) needs at hparts
  simp only [Writer.parts, gives_bind, gives_pure] at hparts
  obtain ⟨structs, k₁, -, maybe, k₂, hprototypes, vs, k₃, hglobals, fds, k₄, hfunctions, hall, -⟩ :=
    hparts
  cases hall
  constructor
  · refine (gives_mapM hfunctions).imp ?_
    rintro f fd ⟨m₁, m₂, hfd⟩
    obtain ⟨hname, hvariables, hlabels⟩ := gives_function_names (gives_inEntity.mp hfd)
    refine ⟨hname, ?_, hlabels⟩
    rw [hvariables]
    exact variables_perm f
  · refine (map_eq_map_of_forall₂ ((gives_mapM hglobals).imp ?_)).symm
    rintro g v ⟨m₁, m₂, hv⟩
    exact (gives_globalVariable (gives_inEntity.mp hv)).symm
  · intro p hp
    rcases mem_append.mp hp with hp | hp
    · left
      obtain ⟨f, hf, m₁, m₂, hsome⟩ :=
        mem_of_forall₂_right (gives_mapM hprototypes) (reduceOption_mem_iff.mp hp)
      exact ⟨f, hf, gives_prototype? (gives_inEntity.mp hsome)⟩
    · right
      unfold Writer.trapPrototype at hp
      split at hp
      · rename_i trap htrap
        split at hp
        · rw [mem_singleton.mp hp, declared_declarationOf]
          exact ⟨trap, htrap, rfl⟩
        · cases hp
      · cases hp
  · rfl

/-- No two symbols of the module have one name, nor two definitions or labels of a function. -/
structure NamesDistinct (m : Module) : Prop where
  symbols : m.symbols.Nodup
  definitions : ∀ f ∈ m.functions, f.isDeclaration = false → f.definitions.Nodup
  labels : ∀ f ∈ m.functions, f.isDeclaration = false → (f.blocks.map (·.label)).Nodup

theorem namesDistinct_of_verify (h : verify m = .ok ()) : NamesDistinct m := by
  obtain ⟨hsymbols, -, hfunctions⟩ := verify_ok.mp h
  refine ⟨hsymbols, fun f hf hdefined => ?_, fun f hf hdefined => ?_⟩
  · exact (Verify.checkFunction_ok.mp (hfunctions f hf hdefined)).2.1
  · exact (Verify.checkFunction_ok.mp (hfunctions f hf hdefined)).1

theorem NamesDistinct.dropUnreachable (h : NamesDistinct m) : NamesDistinct m.dropUnreachable := by
  refine ⟨by rw [Module.symbols_dropUnreachable]; exact h.symbols, ?_, ?_⟩
  · intro f' hf' hdefined
    obtain ⟨f, hf, rfl⟩ := mem_map.mp hf'
    rw [Function.isDeclaration_dropUnreachable] at hdefined
    exact f.definitions_dropUnreachable_sublist.nodup (h.definitions f hf hdefined)
  · intro f' hf' hdefined
    obtain ⟨f, hf, rfl⟩ := mem_map.mp hf'
    rw [Function.isDeclaration_dropUnreachable] at hdefined
    exact f.labels_dropUnreachable_sublist.nodup (h.labels f hf hdefined)

/-- A verified module is written with distinct identifiers exactly where its names are apart, and so
is what is left of it without unreachable blocks: the variables of a function (with temporaries and
slots), its labels, the symbols of the module and its struct tags. -/
theorem identifiers_distinct_iff (w : Writer) {m written : Module} {file : SourceFile}
    (hm : verify m = .ok ()) (hwritten : written = m ∨ written = m.dropUnreachable)
    (hfile : w.sourceFile written = .ok file) :
    Declares w written file ∧
    List.Forall₂ (fun f fd => (fd.variables.Nodup ↔ VariablesApart f) ∧
        (fd.labels.Nodup ↔ Apart (f.blocks.map (·.label))))
      (written.functions.filter fun f => !f.isDeclaration) file.functions ∧
    ((written.symbols.map symbolName).Nodup ↔
      ∀ x ∈ written.symbols, ∀ y ∈ written.symbols, Alike (symbolText x) (symbolText y) → x = y) ∧
    (file.tags.Nodup ↔ written.structs.Pairwise fun d d' => ¬ Alike d.name d'.name) := by
  have hdistinct : NamesDistinct written := by
    rcases hwritten with rfl | rfl
    · exact namesDistinct_of_verify hm
    · exact (namesDistinct_of_verify hm).dropUnreachable
  have hdeclares := declares_of_sourceFile hfile
  refine ⟨hdeclares, ?_, ?_, ?_⟩
  · have hdefined : ∀ f ∈ written.functions.filter (fun f => !f.isDeclaration),
        f ∈ written.functions ∧ f.isDeclaration = false := by
      intro f hf
      simpa using mem_filter.mp hf
    refine ((List.forall₂_and_left _ _).mpr ⟨hdefined, hdeclares.functions⟩).imp ?_
    rintro f fd ⟨⟨hf, hbody⟩, -, hvariables, hlabels⟩
    constructor
    · rw [hvariables.nodup_iff]
      exact nodup_variableNames_iff (hdistinct.definitions f hf hbody)
    · rw [hlabels, ← nodup_map_iff_apart blockName_eq_iff (hdistinct.labels f hf hbody), map_map]
      rfl
  · rw [nodup_map_iff_inj_on hdistinct.symbols]
    simp only [symbolName_eq_iff]
  · rw [hdeclares.tags, List.Nodup, pairwise_map]
    simp only [Ne, structTag_eq_iff]

end

/-- Names with other characters than letters and digits, and no two alike. -/
def dotted : Module where
  name := "m"
  structs := [⟨"p.q", [.int .w32], false, false⟩, ⟨"p.r", [.struct "p.q"], false, false⟩]
  globals := [⟨"x.y", .external, .int .w32, false, some (.int 1)⟩]
  functions := [{
    name := "1.f"
    linkage := .external
    result := .int .w32
    params := [⟨"a.b", .int .w32⟩, ⟨"v.phi", .int .w32⟩]
    isVariadic := false
    blocks := [
      ⟨"b.1", [.alloca "v.slot" (.int .w32)], some (.jump "b.2")⟩,
      ⟨"b.2", [.phi "v" (.int .w32) [(.var "a.b", "b.1")]],
        some (.ret (some (.int .w32, .var "v")))⟩] }]

theorem identifiers_distinct_iff_dotted :
    verify dotted = .ok () ∧ ∃ file, hostWriter.sourceFile dotted = .ok file ∧
      (∀ fd ∈ file.functions, fd.variables.Nodup ∧ fd.labels.Nodup) ∧
      (dotted.symbols.map symbolName).Nodup ∧ file.tags.Nodup := by
  have hm : verify dotted = .ok () := rfl
  obtain ⟨file, hfile⟩ : ∃ file, hostWriter.sourceFile dotted = .ok file := ⟨_, rfl⟩
  have hapart : ∀ f ∈ dotted.functions, VariablesApart f ∧ Apart (f.blocks.map (·.label)) := by
    intro f hf
    rw [mem_singleton.mp hf]
    exact ⟨⟨by decide +kernel, by decide +kernel, by decide +kernel⟩, by decide +kernel⟩
  obtain ⟨-, hfunctions, hsymbols, htags⟩ := identifiers_distinct_iff hostWriter hm (.inl rfl) hfile
  refine ⟨hm, file, hfile, ?_, hsymbols.mpr (by decide +kernel), htags.mpr (by decide +kernel)⟩
  intro fd hfd
  obtain ⟨f, hf, hvariables, hlabels⟩ := mem_of_forall₂_right hfunctions hfd
  have ha := hapart f (mem_of_mem_filter hf)
  exact ⟨hvariables.mpr ha.1, hlabels.mpr ha.2⟩

/-- Names that differ, and are alike wherever an identifier is made of them. -/
def squeezed : Module where
  name := "m"
  structs := [⟨"p.q", [.int .w32], false, false⟩, ⟨"p_q", [.int .w64], false, false⟩]
  globals := [⟨"x.y", .external, .int .w32, false, some (.int 1)⟩,
    ⟨"x_y", .external, .int .w32, false, some (.int 2)⟩]
  functions := [{
    name := "f"
    linkage := .external
    result := .int .w32
    params := [⟨"a.b", .int .w32⟩, ⟨"a_b", .int .w32⟩, ⟨"v__phi", .int .w32⟩,
      ⟨"s__slot", .int .w32⟩]
    isVariadic := false
    blocks := [
      ⟨"b.1", [.alloca "s" (.int .w32)], some (.jump "b_1")⟩,
      ⟨"b_1", [.phi "v" (.int .w32) [(.var "a.b", "b.1")]],
        some (.ret (some (.int .w32, .var "v")))⟩] }]

theorem squeezed_identifiers_collide :
    verify squeezed = .ok () ∧ ∃ file, hostWriter.sourceFile squeezed = .ok file ∧
      file.functions.map (·.variables) =
        [["v_a_b", "v_a_b", "v_v__phi", "v_s__slot", "v_s__slot", "v_s", "v_v", "v_v__phi"]] ∧
      file.functions.map (·.labels) = [["bb_b_1", "bb_b_1"]] ∧
      file.globals.map (·.declaration.declared) = ["x_y", "x_y"] ∧
      file.tags = ["p_q", "p_q"] := by
  refine ⟨rfl, _, rfl, ?_, ?_, ?_, ?_⟩ <;> decide +kernel

end Offload.C
