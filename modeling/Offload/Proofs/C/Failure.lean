import Offload.Proofs.C.Containment
import Offload.Proofs.C.Incoming

/-!
# Flaws that emission reports

A flaw lies in the types, constants, structs or intrinsics of a module, or in its form: a block
without an end, a branch to nowhere, a value without a type. Flaws of the last kind are ruled out
for a module that has been verified, and they stay so when its unreachable blocks are dropped.
-/

namespace Offload.C

open Offload.Compiled

variable {flaw : EmitFlaw}
open Offload.Target

/-- What a flaw lies in. -/
inductive EmitFlaw.Subject where
  | types
  | constants
  | structs
  | intrinsics
  | form
deriving DecidableEq, Repr

@[simp] def EmitFlaw.subject : EmitFlaw → Subject
  | kernelResult | indexedBy .. | noField .. | stepsIntoScalar _ | bitcast .. => .types
  | integerConstant _ | constantOfType .. | aggregateOperand => .constants
  | containsItself _ | noFields _ | unknownStruct _ => .structs
  | unsupportedIntrinsic _ | intrinsicArity .. | unavailable _ | intrinsicType .. => .intrinsics
  | untypedValue _ | noTerminator _ | unknownBlock _ => .form

/-! ### Operands that cannot be written -/

/-- What is reported of a constant that cannot be written as a value of a type. -/
def operandFlaw (v : Value) (t : Ty) : EmitFlaw :=
  match v with
  | .int _ => .integerConstant t
  | .array _ | .struct _ => .aggregateOperand
  | v => .constantOfType v t

/-- The flaw is that of an operand which cannot be written as a value of its type. -/
def IsOperandFlaw (operands : List (Ty × Value)) (flaw : EmitFlaw) : Prop :=
  ∃ operand ∈ operands, operandExpr? operand.2 operand.1 = none ∧
    flaw = operandFlaw operand.2 operand.1

theorem IsOperandFlaw.mono {operands operands' : List (Ty × Value)}
    (h : IsOperandFlaw operands flaw) (hsub : operands ⊆ operands') :
    IsOperandFlaw operands' flaw := by
  obtain ⟨operand, hmem, hoperand⟩ := h
  exact ⟨operand, hsub hmem, hoperand⟩

section

variable {w : Writer} {P : EmitFlaw → Prop} {f : Function} {α : Type}

theorem failsOnly_declare (qualifiers : List Qualifier) (t : Ty) (a : α) :
    FailsOnly P (Emit.declare qualifiers t a) := by
  intro n flaw hrun
  obtain ⟨n', hgives⟩ := exists_gives_declare qualifiers t a n
  rw [show (Emit.declare qualifiers t a).run n = _ from hgives] at hrun
  cases hrun

theorem failsOnly_needMath : FailsOnly P w.needMath := by
  unfold Writer.needMath
  split
  · exact .modify _
  · exact .pure _

theorem failsOnly_floatLiteral (x : Binary64) (t : Ty) : FailsOnly P (w.floatLiteral x t) :=
  .ite (failsOnly_needMath.bind fun _ => .pure _)
    (.ite (failsOnly_needMath.bind fun _ => .pure _) (.pure _))

/-- The only operands that cannot be written are constants without a form at their type. -/
theorem failsOnly_value (v : Value) (t : Ty) :
    FailsOnly (IsOperandFlaw [(t, v)]) (w.value v t) := by
  have hflaw {v : Value} {t : Ty} (h : operandExpr? v t = none) :
      IsOperandFlaw [(t, v)] (operandFlaw v t) := ⟨(t, v), by simp, h, rfl⟩
  have hnamed {t : Ty} {f : TypeName → Expr} :
      FailsOnly (IsOperandFlaw [(t, v)]) (do return f (← Emit.typeName t) : Emit Expr) :=
    (failsOnly_declare _ _ _).bind fun _ => .pure _
  have hzero (hv : operandFlaw v t = .constantOfType v t)
      (hexpr : operandExpr? v t = zeroExpr? t) :
      FailsOnly (IsOperandFlaw [(t, v)]) (Writer.zeroValue v t) := by
    cases t with
    | void => exact .throw (hv ▸ hflaw hexpr)
    | array k element => exact .throw (hv ▸ hflaw hexpr)
    | ptr pointee => exact hnamed
    | struct name => exact hnamed
    | _ => exact .pure _
  cases v with
  | var name => exact .pure _
  | symbol name => exact .pure _
  | bool b => exact .pure _
  | float x => exact failsOnly_floatLiteral x t
  | int k =>
    cases t with
    | float => exact failsOnly_floatLiteral _ _
    | double => exact failsOnly_floatLiteral _ _
    | int width => exact .pure _
    | ptr pointee => exact hnamed
    | void => exact .throw (hflaw rfl)
    | array _ _ => exact .throw (hflaw rfl)
    | struct _ => exact .throw (hflaw rfl)
  | null => exact hzero rfl rfl
  | undef => exact hzero rfl rfl
  | zero => exact hzero rfl rfl
  | array items => exact .throw (hflaw rfl)
  | struct items => exact .throw (hflaw rfl)

theorem failsOnly_pointerTo (s : Scope) (base : Value) (pointee : Ty) :
    FailsOnly (IsOperandFlaw [(.ptr pointee, base)]) (w.pointerTo s base pointee) :=
  (failsOnly_value base _).bind fun _ => .ite (.pure _)
    ((failsOnly_declare _ _ _).bind fun _ => .pure _)

/-! ### Expressions -/

/-- The flaw does not lie in the form. -/
@[simp] def EmitFlaw.OfContent (flaw : EmitFlaw) : Prop := flaw.subject ≠ .form

theorem IsOperandFlaw.ofContent {operands : List (Ty × Value)}
    (h : IsOperandFlaw operands flaw) : flaw.OfContent := by
  obtain ⟨⟨t, v⟩, -, -, rfl⟩ := h
  cases v with
  | _ => simp [operandFlaw]

/-- An expression, or anything else that is written, fails for its content only. -/
abbrev FailsByContent {α : Type} (x : Emit α) : Prop := FailsOnly EmitFlaw.OfContent x

namespace FailsByContent

variable (s : Scope)

theorem value (v : Value) (t : Ty) : FailsByContent (w.value v t) :=
  (failsOnly_value v t).imp fun _ h => h.ofContent

theorem pointerTo (base : Value) (pointee : Ty) : FailsByContent (w.pointerTo s base pointee) :=
  (failsOnly_pointerTo s base pointee).imp fun _ h => h.ofContent

theorem declare (qualifiers : List Qualifier) (t : Ty) (a : α) :
    FailsByContent (Emit.declare qualifiers t a) := failsOnly_declare qualifiers t a

theorem typeName (t : Ty) : FailsByContent (Emit.typeName t) := declare _ _ _

theorem fail (h : flaw.OfContent) : FailsByContent (Emit.fail flaw : Emit α) := .throw h

theorem unsignedName (t : Ty) : FailsByContent (Emit.unsignedName t) := by
  unfold Emit.unsignedName
  split
  · exact typeName _
  · exact .pure _
  · exact typeName _

theorem deref (pointer : Value) (t : Ty) : FailsByContent (w.deref s pointer t) := by
  cases pointer with
  | symbol name => exact .ite (.pure _) ((pointerTo s _ _).bind fun _ => .pure _)
  | _ => exact (pointerTo s _ _).bind fun _ => .pure _

theorem binary (op : Compiled.BinaryOp) (t : Ty) (lhs rhs : Value) :
    FailsByContent (w.binary op t lhs rhs) := by
  refine (value _ _).bind fun _ => (value _ _).bind fun _ => .ite ?_ (.ite (.pure _) ?_)
  · exact failsOnly_needMath.bind fun _ => .pure _
  · exact (typeName _).bind fun _ => .ite ((FailsOnly.pure _).bind fun _ => .pure _)
      ((unsignedName _).bind fun _ => .pure _)

theorem compareInts (p : IntPredicate) (t : Ty) (lhs rhs : Value) :
    FailsByContent (w.compareInts p t lhs rhs) :=
  (value _ _).bind fun _ => (value _ _).bind fun _ =>
    .ite ((unsignedName _).bind fun _ => .pure _) (.pure _)

theorem compareFloats (p : FloatPredicate) (t : Ty) (lhs rhs : Value) :
    FailsByContent (w.compareFloats p t lhs rhs) :=
  (value _ _).bind fun _ => (value _ _).bind fun _ => .pure _

theorem castExpr (op : CastOp) (source : Ty) (e : Expr) (target : Ty) :
    FailsByContent (w.castExpr op source e target) := by
  refine (typeName _).bind fun _ => ?_
  cases op with
  | trunc => exact .ite (.pure _) ((unsignedName _).bind fun _ => .pure _)
  | zext => exact .ite (.pure _) ((unsignedName _).bind fun _ => .pure _)
  | sext => exact .ite (.pure _) ((typeName _).bind fun _ => .pure _)
  | fptoui => exact (unsignedName _).bind fun _ => .pure _
  | uitofp => exact (unsignedName _).bind fun _ => .pure _
  | sitofp => exact (typeName _).bind fun _ => .pure _
  | bitcast =>
    refine .ite (.pure _) (.when (fail (by simp)) fun _ => ?_)
    cases w.dialect with
    | openCl => exact .pure _
    | c99 => exact (typeName _).bind fun _ => .pure _
  | _ => exact .pure _

theorem accessStep (at_ : Ty × Expr) (index : Ty × Value) :
    FailsByContent (w.accessStep s at_ index) := by
  unfold Writer.accessStep
  split
  · exact (value _ _).bind fun _ => .pure _
  · split
    · refine .when (fail (by simp)) fun _ => ?_
      split
      · exact .pure _
      · exact fail (by simp)
    · exact fail (by simp)
  · exact fail (by simp)

theorem elementAddress (source : Ty) (base : Value) (path : List (Ty × Value)) :
    FailsByContent (w.elementAddress s source base path) := by
  refine (pointerTo s _ _).bind fun _ => ?_
  cases path with
  | nil => exact .pure _
  | cons first rest =>
    exact (value _ _).bind fun _ =>
      (FailsOnly.foldlM (fun index _ at_ => accessStep s at_ index) _).bind fun _ => .pure _

theorem argument (arg : Ty × Value) : FailsByContent (w.argument s arg) :=
  (value _ _).bind fun _ => .ite (.pure _) (.pure _)

/-! ### Intrinsics -/

theorem intrinsicExpr (callee family : String) (arity : Nat) (t : Ty) (ops : List Expr) :
    FailsByContent (w.intrinsicExpr callee family arity t ops) := by
  have hmemory (family : String) (e : Expr) : FailsByContent (do
      Emit.needHeader (← w.memoryHeader family)
      return e) := by
    refine FailsOnly.bind ?_ fun _ => (FailsOnly.modify _).bind fun _ => .pure _
    unfold Writer.memoryHeader
    dsimp only
    split
    · exact .pure _
    · exact fail (by simp)
  unfold Writer.intrinsicExpr
  split
  · exact .pure _
  · exact hmemory _ _
  · exact hmemory _ _
  · exact hmemory _ _
  · exact .pure _
  · exact .pure _
  · exact (unsignedName _).bind fun _ => .pure _
  · exact (unsignedName _).bind fun _ => .pure _
  · exact (typeName _).bind fun _ => (unsignedName _).bind fun _ => .pure _
  · exact .when (fail (by simp)) fun _ => failsOnly_needMath.bind fun _ => .pure _

theorem intrinsic (callee : String) (args : List (Ty × Value)) :
    FailsByContent (w.intrinsic callee args) := by
  refine .ite (.pure _) (.bind (.mapM fun _ _ => value _ _) fun ops => ?_)
  dsimp only
  split
  · exact fail (by simp)
  · split
    · exact .when (fail (by simp)) fun _ => (intrinsicExpr _ _ _ _ _).bind fun _ => .pure _
    · exact fail (by simp)

/-! ### Statements and blocks -/

theorem statement (i : Instruction) : FailsByContent (w.statement s i) := by
  cases i with
  | binary dest op t lhs rhs => exact (binary _ _ _ _).bind fun _ => .pure _
  | icmp dest p t lhs rhs => exact (compareInts _ _ _ _).bind fun _ => .pure _
  | fcmp dest p t lhs rhs => exact (compareFloats _ _ _ _).bind fun _ => .pure _
  | cast dest op source v target =>
    exact (value _ _).bind fun _ => (castExpr _ _ _ _).bind fun _ => .pure _
  | alloca dest t => exact .pure _
  | load dest t pointer => exact (deref s _ _).bind fun _ => .pure _
  | store t v pointer => exact (value _ _).bind fun _ => (deref s _ _).bind fun _ => .pure _
  | elementPtr dest source base path result =>
    exact (elementAddress s _ _ _).bind fun _ => .pure _
  | call dest t callee args =>
    exact .ite ((intrinsic _ _).bind fun _ => .pure _)
      (.bind (.mapM fun arg _ => argument s arg) fun _ => .pure _)
  | select dest condition t onTrue onFalse =>
    exact (value _ _).bind fun _ => (value _ _).bind fun _ => (value _ _).bind fun _ => .pure _
  | phi dest t incoming => exact .pure _

/-- An instruction that defines a value gives it a type. -/
theorem localsOf (i : Instruction) : FailsByContent (Writer.localsOf s i) := by
  have hresult (qualifiers : List Qualifier) (t : Ty) (dest : String) : FailsByContent (do
      let slot ← pure []
      let result ← Emit.declare qualifiers t (localName dest)
      return slot ++ [result]) :=
    (FailsOnly.pure _).bind fun _ => (declare _ _ _).bind fun _ => .pure _
  cases i with
  | alloca dest t =>
    exact (FailsOnly.map _ (declare _ _ _)).bind fun _ => (declare _ _ _).bind fun _ => .pure _
  | phi dest t incoming =>
    exact (FailsOnly.pure _).bind fun _ => (declare _ _ _).bind fun _ =>
      (declare _ _ _).bind fun _ => .pure _
  | store t v pointer => exact .pure _
  | call dest t callee args =>
    cases dest with
    | none => exact .pure _
    | some dest => exact hresult _ _ _
  | _ => exact hresult _ _ _

theorem phiCopies (label : String) (i : Instruction) : FailsByContent (w.phiCopies label i) := by
  cases i with
  | phi dest t incoming => exact .mapM fun _ _ => (value _ _).bind fun _ => .pure _
  | _ => exact .pure _

theorem edge {label target : String} (h : (f.block? target).isSome = true) :
    FailsByContent (w.edge f label target) := by
  obtain ⟨b, hb⟩ := Option.isSome_iff_exists.mp h
  unfold Writer.edge
  rw [hb]
  exact .bind (.mapM fun i _ => phiCopies label i) fun _ => .pure _

theorem exit {label : String} {t : Terminator}
    (h : ∀ target ∈ t.targets, (f.block? target).isSome = true) :
    FailsByContent (w.exit f label t) := by
  cases t with
  | ret result =>
    cases result with
    | none => exact .pure _
    | some result => exact (value _ _).bind fun _ => .pure _
  | jump target => exact (edge (h target (by simp [Terminator.targets]))).bind fun _ => .pure _
  | branch condition onTrue onFalse =>
    exact (value _ _).bind fun _ => (edge (h onTrue (by simp [Terminator.targets]))).bind fun _ =>
      (edge (h onFalse (by simp [Terminator.targets]))).bind fun _ => .pure _
  | switch t v default cases =>
    refine (value _ _).bind fun _ => .bind (.mapM fun c hc => ?_) fun _ =>
      (edge (h default (by simp [Terminator.targets]))).bind fun _ => .pure _
    have htarget : c.2 ∈ (Terminator.switch t v default cases).targets := by
      simp only [Terminator.targets, List.mem_append, List.mem_map]
      exact .inl ⟨c, hc, rfl⟩
    exact (value _ _).bind fun _ => (edge (h c.2 htarget)).bind fun _ => .pure _
  | unreachable =>
    unfold Writer.exit
    dsimp only
    split
    · exact (FailsOnly.modify _).bind fun _ => .pure _
    · exact .pure _

theorem signature (f : Function) : FailsByContent (w.signature f) := by
  unfold Writer.signature
  dsimp only
  exact .when (fail (by simp)) fun _ => .bind (.mapM fun _ _ => declare _ _ _) fun _ =>
    declare _ _ _

end FailsByContent

end

end Offload.C

namespace Offload.Compiled

/-- Every block has an end, and control goes from there to blocks of the function. -/
def Function.Closed (f : Function) : Prop :=
  ∀ b ∈ f.blocks, ∃ t, b.terminator = some t ∧
    ∀ target ∈ t.targets, (f.block? target).isSome = true

/-- Where control can get to is known to the verifier and kept. -/
theorem Function.closed_dropUnreachable {m : Module}
    (h : Verify.checkFunction m f = .ok ()) : f.dropUnreachable.Closed := by
  obtain ⟨hlabels, -, hblocks, -⟩ := Verify.checkFunction_ok.mp h
  intro b' hb'
  obtain ⟨b, hb, hreach, rfl⟩ := (mem_blocks_dropUnreachable hlabels).mp hb'
  obtain ⟨-, t, ht, hterminator⟩ := Verify.checkBlock_ok.mp (hblocks b hb)
  refine ⟨t, ht, fun target htarget => ?_⟩
  have hsuccessor : target ∈ t.successors := Terminator.mem_targets_iff.mp htarget
  have hknown := Verify.checkTerminator_successors hterminator target hsuccessor
  obtain ⟨b₂, hb₂, rfl⟩ := List.mem_map.mp hknown
  have hreach₂ : f.Reaches b₂.label :=
    .step hb hreach (by simpa [BasicBlock.successors, ht] using hsuccessor)
  have hkept := (mem_blocks_dropUnreachable hlabels).mpr ⟨b₂, hb₂, hreach₂, rfl⟩
  rw [block?, List.find?_isSome]
  exact ⟨_, hkept, by simp [BasicBlock.keepEntries]⟩

end Offload.Compiled

namespace Offload.C

open Offload.Compiled
open Offload.Target

namespace FailsByContent

variable {w : Writer}

theorem block (s : Scope) {b : BasicBlock} {t : Terminator}
    (ht : b.terminator = some t) (h : ∀ target ∈ t.targets, (f.block? target).isSome = true) :
    FailsByContent (w.block s f b) := by
  refine .bind (.mapM fun i _ => statement s i) fun _ => ?_
  rw [ht]
  exact (exit h).bind fun _ => .pure _

theorem function (m : Module) (h : f.Closed) : FailsByContent (w.function m f) := by
  refine (signature f).bind fun _ => .bind (.mapM fun i _ => localsOf _ i) fun _ =>
    .bind (.mapM fun b hb => ?_) fun _ => .pure _
  obtain ⟨t, ht, htargets⟩ := h b hb
  exact block _ ht htargets

/-! ### Modules -/

theorem prototype? (f : Function) : FailsByContent (w.prototype? f) := by
  have hsigned : FailsByContent (do return some (← w.signature f)) :=
    (signature f).bind fun _ => .pure _
  refine .ite (.pure _) (.ite (.ite (.pure _) ?_) hsigned)
  split
  · exact .when (.modify _) fun _ => .pure _
  · exact hsigned

mutual

theorem initializer : ∀ (v : Value) (t : Ty), FailsByContent (w.initializer v t)
  | .array items, _ => (initializers items).bind fun _ => .pure _
  | .struct items, _ => (initializers items).bind fun _ => .pure _
  | .symbol _, _ => .pure _
  | .zero, _ => .ite (.pure _) ((value _ _).bind fun _ => .pure _)
  | .undef, _ => .ite (.pure _) ((value _ _).bind fun _ => .pure _)
  | .var _, _ | .int _, _ | .float _, _ | .bool _, _ | .null, _ => (value _ _).bind fun _ => .pure _

theorem initializers : ∀ items : List (Ty × Value), FailsByContent (w.initializers items)
  | [] => .pure _
  | (t, v) :: items => (initializer v t).bind fun _ => (initializers items).bind fun _ => .pure _

end

theorem globalVariable (g : Global) : FailsByContent (w.globalVariable g) := by
  refine (declare _ _ _).bind fun _ => ?_
  cases g.init with
  | none => exact .pure _
  | some v => exact (initializer v g.type).bind fun _ => .pure _

theorem defineStruct (m : Module) (fuel : Nat) (visiting : List String) (done : Defined)
    (d : StructDef) : FailsByContent (defineStruct m fuel visiting done d) := by
  induction fuel generalizing visiting done d with
  | zero => exact fail (by simp)
  | succ fuel ih =>
    refine .ite (.pure _) (.when (fail (by simp)) fun _ => .when (fail (by simp)) fun _ => ?_)
    refine .bind (.foldlM (fun inner _ done => ?_) _) fun _ => .bind ?_ fun _ => .pure _
    · cases m.struct? inner with
      | none => exact fail (by simp)
      | some s => exact ih _ _ s
    · intro n flaw hrun
      obtain ⟨n', hgives⟩ := exists_gives_fields d n
      rw [show StateT.run _ n = _ from hgives] at hrun
      cases hrun

theorem inEntity (name : String) {step : Emit α} (h : FailsByContent step) :
    FailsOnly (fun e : EmitError => e.flaw.OfContent) (inEntity name step) := by
  intro n e hrun
  change (step.run n).mapError (EmitError.mk name) = .error e at hrun
  cases hstep : step.run n with
  | ok r =>
    rw [hstep] at hrun
    cases hrun
  | error flaw =>
    rw [hstep] at hrun
    cases hrun
    exact h hstep

theorem parts {m : Module} (h : ∀ f ∈ m.functions, f.isDeclaration = false → f.Closed) :
    FailsOnly (fun e : EmitError => e.flaw.OfContent) (w.parts m) := by
  refine .bind (.foldlM (fun d _ done => inEntity _ (defineStruct _ _ _ _ _)) _) fun _ =>
    .bind (.mapM fun f _ => inEntity _ (prototype? f)) fun _ =>
    .bind (.mapM fun g _ => inEntity _ (globalVariable g)) fun _ =>
    .bind (.mapM fun f hf => inEntity _ (function m ?_)) fun _ => .pure _
  obtain ⟨hf, hdefined⟩ := List.mem_filter.mp hf
  exact h f hf (by simpa using hdefined)

end FailsByContent

/-- Once a verified module has lost its unreachable blocks, whatever keeps it from being written
lies in its types, constants, structs or intrinsics: no block is without an end, no branch goes to
a block that is missing, and no value is without a type. -/
theorem write_fails_by_content {m : Module} (hm : verify m = .ok ()) (w : Writer) {e : EmitError}
    (hwrite : w.write m.dropUnreachable = .error e) : e.flaw.subject ≠ .form := by
  have hclosed : ∀ f ∈ m.dropUnreachable.functions, f.isDeclaration = false → f.Closed := by
    intro f' hf' hdefined
    obtain ⟨f, hf, rfl⟩ := List.mem_map.mp hf'
    rw [Function.isDeclaration_dropUnreachable] at hdefined
    exact Function.closed_dropUnreachable ((verify_ok.mp hm).2.2 f hf hdefined)
  have hparts : (w.parts m.dropUnreachable).run {} = .error e := by
    unfold Writer.write Writer.sourceFile at hwrite
    cases hrun : (w.parts m.dropUnreachable).run {} with
    | ok r =>
      rw [hrun] at hwrite
      cases hwrite
    | error e' =>
      rw [hrun] at hwrite
      cases hwrite
      rfl
  exact FailsByContent.parts hclosed hparts

/-- A change of width that is asked for as a reinterpretation of bits, behind a switch and beside a
block that control never gets to. -/
def mismatchedBits : Module where
  name := "m"
  functions := [{
    name := "f"
    linkage := .external
    result := .int .w64
    params := [⟨"x", .int .w32⟩]
    isVariadic := false
    blocks := [
      ⟨"entry", [], some (.switch (.int .w32) (.var "x") "wide" [(1, "stop"), (2, "stop")])⟩,
      ⟨"wide", [.cast "y" .bitcast (.int .w32) (.var "x") (.int .w64)],
        some (.ret (some (.int .w64, .var "y")))⟩,
      ⟨"stop", [], some .unreachable⟩,
      ⟨"apart", [], some (.jump "stop")⟩] }]

theorem write_fails_by_content_mismatchedBits :
    verify mismatchedBits = .ok () ∧
    hostWriter.write mismatchedBits.dropUnreachable =
      .error ⟨"f", .bitcast (.int .w32) (.int .w64)⟩ ∧
    EmitFlaw.subject (.bitcast (.int .w32) (.int .w64)) ≠ .form := by
  have hm : verify mismatchedBits = .ok () := rfl
  have hwrite : hostWriter.write mismatchedBits.dropUnreachable =
      .error ⟨"f", .bitcast (.int .w32) (.int .w64)⟩ := rfl
  exact ⟨hm, hwrite, write_fails_by_content hm hostWriter hwrite⟩

end Offload.C
