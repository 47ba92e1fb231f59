import Offload.C.Intrinsic

/-!
# Functions as source

Every value becomes a variable of the function and every block a label. A phi has a temporary, which
is assigned on each way into its block and read at the block's head.
-/

namespace Offload.C

open Offload.Compiled
open Offload.Target

namespace Writer

variable (w : Writer)

/-- The address space that an instruction's result gets from its operands. -/
def derivedSpace? (s : Scope) : Instruction → Option AddressSpace
  | .elementPtr _ _ base _ _ => s.spaceOf? base
  | .cast _ .bitcast _ v _ => s.spaceOf? v
  | .select _ _ _ onTrue onFalse => (s.spaceOf? onTrue).or (s.spaceOf? onFalse)
  | .phi _ _ incoming => incoming.findSome? fun e => s.spaceOf? e.1
  | _ => none

/-- Give an instruction's result its address space, unless it has one. -/
def spreadStep (s : Scope) (i : Instruction) : Scope :=
  match derivedSpace? s i, i.dest? with
  | some space, some dest =>
    if (s.spaces.lookup dest).isSome then s else { s with spaces := (dest, space) :: s.spaces }
  | _, _ => s

/-- Repeat over all instructions until nothing is added; every round before the last one adds a
name. -/
def spread (instructions : List Instruction) : Nat → Scope → Scope
  | 0, s => s
  | fuel + 1, s =>
    let s' := instructions.foldl spreadStep s
    if s'.spaces.length = s.spaces.length then s else spread instructions fuel s'

def kernelSpaces (f : Function) : List (String × AddressSpace) :=
  if w.isKernel f then
    (f.params.filter (·.type.isPtr)).map fun p => (p.name, .global)
  else []

def valueTypes (f : Function) : List (String × Ty) :=
  let params := f.params.map fun p => (p.name, p.type)
  let results := f.instructions.filterMap fun i => do return (← i.dest?, ← i.resultType?)
  (params ++ results).reverse

def scopeOf (m : Module) (f : Function) : Scope :=
  let s : Scope := ⟨m, valueTypes f, w.kernelSpaces f⟩
  match w.dialect with
  | .openCl => spread f.instructions (f.instructions.length + 1) s
  | .c99 => s

/-- A function's head with its qualifiers. -/
def signature (f : Function) : Emit Prototype := do
  let isKernel := w.isKernel f
  if isKernel && !f.result.isVoid then Emit.fail .kernelResult
  let params ← f.params.mapM fun p =>
    let qualifiers := if isKernel && p.type.isPtr then [.space .global] else []
    Emit.declare qualifiers p.type (localName p.name)
  let qualifiers :=
    (if f.linkage == .internal then [.static] else []) ++ (if isKernel then [.kernel] else [])
  Emit.declare qualifiers f.result ⟨symbolName f.name, params, f.isVariadic⟩

/-- The variables that an instruction needs: a slot for an allocation, its result, and a temporary
for a phi. -/
def localsOf (s : Scope) (i : Instruction) : Emit (List Variable) := do
  match i.dest? with
  | none => return []
  | some dest =>
    let slot ← match i with
      | .alloca _ t => List.singleton <$> Emit.declare [] t (slotName dest)
      | _ => pure []
    match i.resultType? with
    | none => Emit.fail (.untypedValue dest)
    | some t =>
      let qualifiers := (s.spaces.lookup dest).toList.map .space
      let result ← Emit.declare qualifiers t (localName dest)
      match i with
      | .phi .. => return slot ++ [result, ← Emit.declare qualifiers t (phiName dest)]
      | _ => return slot ++ [result]

def assignTo (dest : String) (e : Expr) : Statement := .assign (.ident (localName dest)) e

/-- The result of a call goes to its destination, if it has one. -/
def callStatement (dest : Option String) (e : Expr) : Statement :=
  match dest with
  | some d => assignTo d e
  | none => .eval e

/-- The statement for an instruction; a phi and a hint have none. -/
def statement (s : Scope) (i : Instruction) : Emit (Option Statement) := do
  match i with
  | .binary dest op t lhs rhs => return some (assignTo dest (← w.binary op t lhs rhs))
  | .icmp dest p t lhs rhs => return some (assignTo dest (← w.compareInts p t lhs rhs))
  | .fcmp dest p t lhs rhs => return some (assignTo dest (← w.compareFloats p t lhs rhs))
  | .cast dest op source v target =>
    let e ← w.value v source
    return some (assignTo dest (← w.castExpr op source e target))
  | .alloca dest _ => return some (assignTo dest (.unary .address (.ident (slotName dest))))
  | .load dest t pointer => return some (assignTo dest (← w.deref s pointer t))
  | .store t v pointer =>
    let e ← w.value v t
    return some (.assign (← w.deref s pointer t) e)
  | .elementPtr dest source base indices _ =>
    return some (assignTo dest (← w.elementAddress s source base indices))
  | .call dest _ callee args =>
    if isIntrinsic callee then
      return (← w.intrinsic callee args).map (callStatement dest)
    let args ← args.mapM (w.argument s)
    return some (callStatement dest (.call (symbolName callee) args))
  | .select dest condition t onTrue onFalse =>
    let c ← w.value condition (.int .w1)
    let a ← w.value onTrue t
    let b ← w.value onFalse t
    return some (assignTo dest (.conditional c a b))
  | .phi .. => return none

/-- What a phi's temporary is assigned on the way from a block. -/
def phiCopies (label : String) : Instruction → Emit (List (String × Expr))
  | .phi dest t incoming =>
    (incoming.filter fun e => e.2 == label).mapM fun e =>
      return (phiName dest, ← w.value e.1 t)
  | _ => return []

def edge (f : Function) (label target : String) : Emit Edge := do
  match f.block? target with
  | none => Emit.fail (.unknownBlock target)
  | some b => return ⟨(← b.instructions.mapM (w.phiCopies label)).flatten, blockName target⟩

def exit (f : Function) (label : String) (t : Terminator) : Emit Exit := do
  match t with
  | .ret none => return .ret none
  | .ret (some (t, v)) => return .ret (some (← w.value v t))
  | .jump target => return .jump (← w.edge f label target)
  | .branch condition onTrue onFalse =>
    let c ← w.value condition (.int .w1)
    return .branch c (← w.edge f label onTrue) (← w.edge f label onFalse)
  | .switch t v default cases =>
    let e ← w.value v t
    let cases ← cases.mapM fun c => return (← w.value (.int c.1) t, ← w.edge f label c.2)
    return .switch e cases (← w.edge f label default)
  | .unreachable =>
    match w.options.trapFunction with
    | some name =>
      modify fun n => { n with usesTrap := true }
      return .trap (some (symbolName name))
    | none => return .trap none

/-- A phi reads its temporary at the head of its block. -/
def phiMove? : Instruction → Option Statement
  | .phi dest .. => some (assignTo dest (.ident (phiName dest)))
  | _ => none

def block (s : Scope) (f : Function) (b : BasicBlock) : Emit Block := do
  let statements ← b.instructions.mapM (w.statement s)
  match b.terminator with
  | none => Emit.fail (.noTerminator b.label)
  | some t =>
    return ⟨blockName b.label, b.instructions.filterMap phiMove? ++ statements.reduceOption,
      ← w.exit f b.label t⟩

def function (m : Module) (f : Function) : Emit FunctionDefinition := do
  let s := w.scopeOf m f
  let prototype ← w.signature f
  let locals ← f.instructions.mapM (localsOf s)
  let blocks ← f.blocks.mapM (w.block s f)
  return ⟨if w.verbose then some ("@" ++ f.name) else none, prototype, locals.flatten, blocks⟩

end Writer

end Offload.C
