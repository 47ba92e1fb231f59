import Offload.Compiled.Module

/-!
# Well-formed modules

The checks that a module passes before it is turned into source. The first problem in the order of
the module's text is reported.
-/

namespace Offload.Compiled

/-- What is wrong with a function. -/
inductive FunctionFlaw where
  | duplicateLabel (label : String)
  | duplicateParam (name : String)
  | duplicateValue (name : String)
  | undefinedValue (name : String)
  | unknownSymbol (name : String)
  | unknownFunction (name : String)
  | argumentCount (callee : String) (passed : Nat) (isVariadic : Bool) (expected : Nat)
  | unknownPhiLabel (dest label : String)
  | nonPointerAccess (v : Value)
  | noTerminator (label : String)
  | unknownSuccessor (label target : String)
  | missingResult (result : Ty)
  | resultType (found result : Ty)
  | entryPhi
deriving Repr

def FunctionFlaw.message : FunctionFlaw → String
  | duplicateLabel label => "block label '" ++ label ++ "' is used twice"
  | duplicateParam name => "parameter '%" ++ name ++ "' is declared twice"
  | duplicateValue name => "value '%" ++ name ++ "' is defined twice"
  | undefinedValue name => "use of undefined value '%" ++ name ++ "'"
  | unknownSymbol name => "use of unknown symbol '@" ++ name ++ "'"
  | unknownFunction name => "call to unknown function '@" ++ name ++ "'"
  | argumentCount callee passed isVariadic expected =>
    "call to '@" ++ callee ++ "' passes " ++ toString passed ++ " argument(s), expected " ++
      (if isVariadic then "at least " else "") ++ toString expected
  | unknownPhiLabel dest label => "phi '%" ++ dest ++ "' names unknown block '" ++ label ++ "'"
  | nonPointerAccess v => "memory access through non-pointer constant " ++ v.render
  | noTerminator label => "block '" ++ label ++ "' has no terminator"
  | unknownSuccessor label target =>
    "branch from '" ++ label ++ "' to unknown block '" ++ target ++ "'"
  | missingResult result => "'ret void' in function returning " ++ result.render
  | resultType found result =>
    "returns " ++ found.render ++ " from function returning " ++ result.render
  | entryPhi => "entry block cannot contain phi nodes"

inductive VerifyError where
  | duplicateSymbol (name : String)
  | unknownInitializer (global missing : String)
  | function (name : String) (flaw : FunctionFlaw)
deriving Repr

def VerifyError.message : VerifyError → String
  | duplicateSymbol name => "symbol '@" ++ name ++ "' is defined twice"
  | unknownInitializer global missing =>
    "global '@" ++ global ++ "' refers to unknown symbol '@" ++ missing ++ "'"
  | function name flaw => "function '@" ++ name ++ "': " ++ flaw.message

/-- The first name that is already among those seen or before it in the list. -/
def firstDuplicate : List String → List String → Option String
  | _, [] => none
  | seen, name :: rest =>
    if seen.contains name then some name else firstDuplicate (name :: seen) rest

/-- Report the first item that has a flaw. -/
def reportFirst (check : α → Except ε Unit) (items : List α) : Except ε Unit := items.forM check

namespace Verify

variable (m : Module)

def isSymbol (name : String) : Bool := (m.global? name).isSome || (m.function? name).isSome

mutual

/-- The first symbol in a value that the module does not define. -/
def missingSymbol : Value → Option String
  | .symbol name => if isSymbol m name then none else some name
  | .array items | .struct items => missingInItems items
  | _ => none

def missingInItems : List (Ty × Value) → Option String
  | [] => none
  | (_, v) :: rest => (missingSymbol v).or (missingInItems rest)

end

/-- An operand is a defined value, a known symbol or a constant. -/
def checkValue (defined : List String) (v : Value) : Except FunctionFlaw Unit :=
  match v with
  | .var name => if defined.contains name then .ok () else .error (.undefinedValue name)
  | _ =>
    match missingSymbol m v with
    | some name => .error (.unknownSymbol name)
    | none => .ok ()

def checkCall (callee : String) (args : List (Ty × Value)) : Except FunctionFlaw Unit :=
  match m.function? callee with
  | none => .error (.unknownFunction callee)
  | some f =>
    let fits :=
      if f.isVariadic then f.params.length ≤ args.length else args.length = f.params.length
    if fits then .ok ()
    else .error (.argumentCount callee args.length f.isVariadic f.params.length)

def checkAccess : Value → Except FunctionFlaw Unit
  | .int v => .error (.nonPointerAccess (.int v))
  | .float v => .error (.nonPointerAccess (.float v))
  | .bool b => .error (.nonPointerAccess (.bool b))
  | _ => .ok ()

def checkInstruction (labels defined : List String) (i : Instruction) :
    Except FunctionFlaw Unit := do
  reportFirst (checkValue m defined) i.operands
  match i with
  | .call _ _ callee args => checkCall m callee args
  | .phi dest _ incoming =>
    match incoming.find? fun e => !labels.contains e.2 with
    | some e => .error (.unknownPhiLabel dest e.2)
    | none => .ok ()
  | .load _ _ pointer => checkAccess pointer
  | .store _ _ pointer => checkAccess pointer
  | _ => .ok ()

def checkSuccessor (labels : List String) (label target : String) : Except FunctionFlaw Unit :=
  if labels.contains target then .ok () else .error (.unknownSuccessor label target)

def checkTerminator (labels defined : List String) (result : Ty) (label : String)
    (t : Terminator) : Except FunctionFlaw Unit := do
  reportFirst (checkSuccessor labels label) t.successors
  match t with
  | .ret none => if result.isVoid then .ok () else .error (.missingResult result)
  | .ret (some (found, v)) =>
    if found = result then checkValue m defined v else .error (.resultType found result)
  | .branch condition _ _ => checkValue m defined condition
  | .switch _ v _ _ => checkValue m defined v
  | .jump _ | .unreachable => .ok ()

def checkBlock (labels defined : List String) (result : Ty) (b : BasicBlock) :
    Except FunctionFlaw Unit := do
  reportFirst (checkInstruction m labels defined) b.instructions
  match b.terminator with
  | none => .error (.noTerminator b.label)
  | some t => checkTerminator m labels defined result b.label t

def isPhi : Instruction → Bool
  | .phi .. => true
  | _ => false

def checkEntry (f : Function) : Except FunctionFlaw Unit :=
  match f.blocks with
  | entry :: _ => if entry.instructions.any isPhi then .error .entryPhi else .ok ()
  | [] => .ok ()

def checkNames (f : Function) : Except FunctionFlaw Unit :=
  let params := f.params.map (·.name)
  match firstDuplicate [] (f.blocks.map (·.label)) with
  | some label => .error (.duplicateLabel label)
  | none =>
    match firstDuplicate [] params with
    | some name => .error (.duplicateParam name)
    | none =>
      match firstDuplicate params (f.instructions.filterMap (·.dest?)) with
      | some name => .error (.duplicateValue name)
      | none => .ok ()

def checkFunction (f : Function) : Except FunctionFlaw Unit := do
  checkNames f
  let labels := f.blocks.map (·.label)
  let defined := f.params.map (·.name) ++ f.instructions.filterMap (·.dest?)
  reportFirst (checkBlock m labels defined f.result) f.blocks
  checkEntry f

def checkGlobal (g : Global) : Except VerifyError Unit :=
  match g.init.bind (missingSymbol m) with
  | some name => .error (.unknownInitializer g.name name)
  | none => .ok ()

end Verify

/-- Check a whole module; declarations have nothing to check. -/
def verify (m : Module) : Except VerifyError Unit := do
  match firstDuplicate [] (m.globals.map (·.name) ++ m.functions.map (·.name)) with
  | some name => .error (.duplicateSymbol name)
  | none =>
    reportFirst (Verify.checkGlobal m) m.globals
    reportFirst
      (fun f => (Verify.checkFunction m f).mapError (.function f.name))
      (m.functions.filter fun f => !f.isDeclaration)

end Offload.Compiled
