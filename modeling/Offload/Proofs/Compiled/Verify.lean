import Offload.Compiled.Verify
import Offload.Proofs.Outcome
import Mathlib.Data.List.Nodup

/-!
# What verified modules satisfy

Each check is read back as the property it tests: names are distinct, operands are defined, labels
and callees are known.
-/

namespace Offload.Compiled

open List

/-! ### Passing a list of checks -/

section

variable {α ε : Type} {check : α → Except ε Unit} {items : List α}

theorem reportFirst_cons (a : α) (items : List α) :
    reportFirst check (a :: items) = check a >>= fun _ => reportFirst check items := rfl

theorem reportFirst_ok : reportFirst check items = .ok () ↔ ∀ a ∈ items, check a = .ok () := by
  induction items with
  | nil => simp [reportFirst, pure, Except.pure]
  | cons a items ih =>
    rw [reportFirst_cons, except_seq_ok, forall_mem_cons, ih]

theorem reportFirst_error {e : ε} (h : reportFirst check items = .error e) :
    ∃ a ∈ items, check a = .error e := by
  induction items with
  | nil => cases h
  | cons a items ih =>
    rw [reportFirst_cons] at h
    cases ha : check a with
    | error e' =>
      rw [ha] at h
      cases h
      exact ⟨a, mem_cons_self, ha⟩
    | ok u =>
      rw [ha] at h
      obtain ⟨b, hb, he⟩ := ih h
      exact ⟨b, mem_cons_of_mem _ hb, he⟩

end

theorem firstDuplicate_eq_none {seen names : List String} :
    firstDuplicate seen names = none ↔ names.Nodup ∧ ∀ name ∈ names, name ∉ seen := by
  induction names generalizing seen with
  | nil => simp [firstDuplicate]
  | cons name names ih =>
    rw [firstDuplicate]
    by_cases hname : name ∈ seen
    · simp [hname]
    · rw [if_neg (by simpa using hname), ih, nodup_cons, forall_mem_cons]
      constructor
      · rintro ⟨hnodup, hfresh⟩
        refine ⟨⟨fun hmem => hfresh name hmem mem_cons_self, hnodup⟩, hname, ?_⟩
        exact fun other hother hseen => hfresh other hother (mem_cons_of_mem _ hseen)
      · rintro ⟨⟨hnotMem, hnodup⟩, -, hfresh⟩
        refine ⟨hnodup, fun other hother hseen => ?_⟩
        rcases mem_cons.mp hseen with rfl | hseen
        · exact hnotMem hother
        · exact hfresh other hother hseen

theorem firstDuplicate_nil_eq_none {names : List String} :
    firstDuplicate [] names = none ↔ names.Nodup := by
  simp [firstDuplicate_eq_none]

/-! ### Functions -/

/-- Parameters and results of instructions. -/
def Function.definitions (f : Function) : List String :=
  f.params.map (·.name) ++ f.instructions.filterMap Instruction.dest?

/-- The value that the terminator reads. -/
def Terminator.operands : Terminator → List Value
  | .ret (some (_, v)) => [v]
  | .branch condition _ _ => [condition]
  | .switch _ v _ _ => [v]
  | .ret none | .jump _ | .unreachable => []

/-- The values that the block reads. -/
def BasicBlock.operands (b : BasicBlock) : List Value :=
  b.instructions.flatMap (·.operands) ++ (b.terminator.map (·.operands)).getD []

namespace Verify

variable {m : Module} {labels defined : List String} {result : Ty}

theorem checkValue_var {name : String} :
    checkValue m defined (.var name) = .ok () ↔ name ∈ defined := by
  by_cases h : name ∈ defined <;> simp [checkValue, h]

theorem checkInstruction_operands {i : Instruction}
    (h : checkInstruction m labels defined i = .ok ()) :
    ∀ v ∈ i.operands, checkValue m defined v = .ok () := by
  unfold checkInstruction at h
  exact reportFirst_ok.mp (except_seq_ok.mp h).1

theorem checkInstruction_phi {dest : String} {t : Ty} {incoming : List (Value × String)}
    (h : checkInstruction m labels defined (.phi dest t incoming) = .ok ()) :
    ∀ e ∈ incoming, e.2 ∈ labels := by
  rw [checkInstruction, except_seq_ok] at h
  obtain ⟨-, hlabels⟩ := h
  intro e he
  by_contra hunknown
  cases hfind : incoming.find? fun e => !labels.contains e.2 with
  | none =>
    have := find?_eq_none.mp hfind e he
    simp [hunknown] at this
  | some e' =>
    simp only [hfind] at hlabels
    cases hlabels

theorem checkTerminator_operands {label : String} {t : Terminator}
    (h : checkTerminator m labels defined result label t = .ok ()) :
    ∀ v ∈ t.operands, checkValue m defined v = .ok () := by
  unfold checkTerminator at h
  obtain ⟨-, h⟩ := except_seq_ok.mp h
  intro v hv
  cases t with
  | ret r =>
    cases r with
    | none => simp [Terminator.operands] at hv
    | some r =>
      obtain ⟨found, w⟩ := r
      obtain rfl : v = w := by simpa [Terminator.operands] using hv
      by_cases htype : found = result
      · simpa [htype] using h
      · simp [htype] at h
  | branch condition onTrue onFalse =>
    obtain rfl : v = condition := by simpa [Terminator.operands] using hv
    exact h
  | switch type value default cases =>
    obtain rfl : v = value := by simpa [Terminator.operands] using hv
    exact h
  | jump target => simp [Terminator.operands] at hv
  | unreachable => simp [Terminator.operands] at hv

theorem checkTerminator_successors {label : String} {t : Terminator}
    (h : checkTerminator m labels defined result label t = .ok ()) :
    ∀ target ∈ t.successors, target ∈ labels := by
  unfold checkTerminator at h
  obtain ⟨hsuccessors, -⟩ := except_seq_ok.mp h
  intro target ht
  have hcheck := reportFirst_ok.mp hsuccessors target ht
  by_contra hunknown
  simp [checkSuccessor, hunknown] at hcheck

theorem checkBlock_ok {b : BasicBlock} :
    checkBlock m labels defined result b = .ok () ↔
      (∀ i ∈ b.instructions, checkInstruction m labels defined i = .ok ()) ∧
      ∃ t, b.terminator = some t ∧ checkTerminator m labels defined result b.label t = .ok () := by
  rw [checkBlock, except_seq_ok, reportFirst_ok]
  cases ht : b.terminator with
  | none => simp
  | some t => simp

/-- Every value that a checked block reads is defined. -/
theorem mem_of_checkBlock {b : BasicBlock} (h : checkBlock m labels defined result b = .ok ())
    {name : String} (hname : .var name ∈ b.operands) : name ∈ defined := by
  obtain ⟨hinstructions, t, ht, hterminator⟩ := checkBlock_ok.mp h
  rw [← checkValue_var (m := m)]
  rcases mem_append.mp hname with hname | hname
  · obtain ⟨i, hi, hv⟩ := mem_flatMap.mp hname
    exact checkInstruction_operands (hinstructions i hi) _ hv
  · rw [ht] at hname
    exact checkTerminator_operands hterminator _ hname

theorem checkNames_ok {f : Function} :
    checkNames f = .ok () ↔ (f.blocks.map (·.label)).Nodup ∧ f.definitions.Nodup := by
  have hlabels : firstDuplicate [] (f.blocks.map (·.label)) = none ↔ _ := firstDuplicate_nil_eq_none
  have hparams : firstDuplicate [] (f.params.map (·.name)) = none ↔ _ := firstDuplicate_nil_eq_none
  have hdests : firstDuplicate (f.params.map (·.name))
      (f.instructions.filterMap Instruction.dest?) = none ↔ _ := firstDuplicate_eq_none
  rw [Function.definitions, nodup_append', ← hlabels, ← hparams]
  rw [disjoint_comm, disjoint_left.eq, ← hdests]
  simp only [checkNames]
  split
  · simp [*]
  · split
    · simp [*]
    · split <;> simp [*]

theorem checkFunction_ok {f : Function} :
    checkFunction m f = .ok () ↔
      (f.blocks.map (·.label)).Nodup ∧ f.definitions.Nodup ∧
      (∀ b ∈ f.blocks,
        checkBlock m (f.blocks.map (·.label)) f.definitions f.result b = .ok ()) ∧
      checkEntry f = .ok () := by
  rw [checkFunction, except_seq_ok, checkNames_ok, and_assoc]
  change _ ∧ _ ∧ (reportFirst _ f.blocks >>= fun _ => checkEntry f) = .ok () ↔ _
  rw [except_seq_ok, reportFirst_ok]
  rfl

theorem checkEntry_ok {f : Function} :
    checkEntry f = .ok () ↔
      ∀ b, f.blocks.head? = some b → ∀ i ∈ b.instructions, isPhi i = false := by
  unfold checkEntry
  cases hb : f.blocks with
  | nil => simp
  | cons entry rest =>
    simp

end Verify

/-- The names of globals and functions. -/
def Module.symbols (m : Module) : List String :=
  m.globals.map (·.name) ++ m.functions.map (·.name)

theorem mapError_ok {α ε ε' : Type} {x : Except ε α} {wrap : ε → ε'} {a : α} :
    x.mapError wrap = .ok a ↔ x = .ok a := by
  cases x <;> simp [Except.mapError]

theorem verify_ok {m : Module} :
    verify m = .ok () ↔
      m.symbols.Nodup ∧ (∀ g ∈ m.globals, Verify.checkGlobal m g = .ok ()) ∧
      ∀ f ∈ m.functions, f.isDeclaration = false → Verify.checkFunction m f = .ok () := by
  rw [← firstDuplicate_nil_eq_none, Module.symbols]
  unfold verify
  cases firstDuplicate [] (m.globals.map (·.name) ++ m.functions.map (·.name)) with
  | some name => simp
  | none =>
    simp only [true_and]
    rw [except_seq_ok, reportFirst_ok, reportFirst_ok]
    simp [mapError_ok]

/-- Where names and globals pass, a flaw is one of a function. -/
theorem verify_error {m : Module} {e : VerifyError} (h : verify m = .error e)
    (hsymbols : m.symbols.Nodup) (hglobals : ∀ g ∈ m.globals, Verify.checkGlobal m g = .ok ()) :
    ∃ f ∈ m.functions, f.isDeclaration = false ∧
      ∃ flaw, Verify.checkFunction m f = .error flaw ∧ e = .function f.name flaw := by
  have hnone : firstDuplicate [] (m.globals.map (·.name) ++ m.functions.map (·.name)) = none :=
    firstDuplicate_nil_eq_none.mpr hsymbols
  unfold verify at h
  rw [hnone, reportFirst_ok.mpr hglobals] at h
  obtain ⟨f, hf, herror⟩ := reportFirst_error h
  obtain ⟨hf, hdefined⟩ := mem_filter.mp hf
  refine ⟨f, hf, by simpa using hdefined, ?_⟩
  cases hcheck : Verify.checkFunction m f with
  | ok u =>
    rw [hcheck] at herror
    cases herror
  | error flaw =>
    rw [hcheck] at herror
    cases herror
    exact ⟨flaw, rfl, rfl⟩

end Offload.Compiled
