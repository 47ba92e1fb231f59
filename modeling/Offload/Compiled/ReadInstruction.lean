import Offload.Compiled.ReadValue

/-!
# Reading instructions

An instruction that defines a value must name it; the check comes after its operands are read.
Calls of debug intrinsics are read and dropped.
-/

namespace Offload.Compiled.Read

def isDebugName (name : String) : Bool := name.startsWith "llvm.dbg."

def labelRef : Read String := do
  expectWord "label"
  localValue

def named (dest : Option String) (opcode : String) : Read String :=
  match dest with
  | some name => return name
  | none => fail (.unnamedResult opcode)

def caseValue : Read Int := do
  match (← typedValue).2 with
  | .int v => return v
  | .bool b => return if b then 1 else 0
  | v => fail (.caseNotInteger v)

/-- The cases of a switch up to the closing bracket. -/
def switchCases : Nat → Read (List (Int × String))
  | 0 => fail .stalled
  | fuel + 1 => do
    if ← eatMark ']' then return []
    let v ← caseValue
    expectMark ','
    let label ← labelRef
    return (v, label) :: (← switchCases fuel)

/-- A terminator, if the next word starts one. -/
def terminator? : Read (Option Terminator) := do
  if ← eatWord "ret" then
    if ← eatWord "void" then return some (.ret none)
    return some (.ret (some (← typedValue)))
  if ← eatWord "br" then
    if ← atWord "label" then return some (.jump (← labelRef))
    let (_, condition) ← typedValue
    expectMark ','
    let onTrue ← labelRef
    expectMark ','
    let onFalse ← labelRef
    return some (.branch condition onTrue onFalse)
  if ← eatWord "switch" then
    let (t, v) ← typedValue
    expectMark ','
    let default ← labelRef
    expectMark '['
    let cases ← switchCases ((← get).rest.length + 1)
    return some (.switch t v default cases)
  if ← eatWord "unreachable" then return some .unreachable
  return none

/-- A typed operand and a second one of the same type. -/
def operandPair : Read (Ty × Value × Value) := do
  let (t, lhs) ← typedValue
  expectMark ','
  let rhs ← value t
  return (t, lhs, rhs)

/-- A type and an address: `T, ptr p`, or `T* p` for which the pointee is meant. -/
def addressed (flaw : Ty → ReadFlaw) : Read (Ty × Value) := do
  let first ← type
  if ← eatMark ',' then
    let (_, address) ← typedValue
    return (first, address)
  let address ← value first
  match first.typedPointee? with
  | some t => return (t, address)
  | none => fail (flaw first)

/-- Further indices, up to metadata or the end. -/
def indices : Nat → Read (List (Ty × Value))
  | 0 => fail .stalled
  | fuel + 1 => do
    if (← atMark ',') && (← peekAt 1) != .mark '!' then
      advance
      let index ← typedValue
      return index :: (← indices fuel)
    return []

def elementPtr (dest : Option String) : Read Instruction := do
  repeatWhile (eatWordIn ["inbounds", "nuw", "nusw"])
  let (source, base) ← addressed .indexOnNonPointer
  let path ← indices ((← get).rest.length + 1)
  match indexedType (← get).module.structs source path with
  | none => fail (.cannotIndex source path.length)
  | some element =>
    return .elementPtr (← named dest "getelementptr") source base path (.ptr element)

/-- Arguments up to the closing parenthesis, after the opening one. -/
def callArguments : Read (List (Ty × Value)) := do
  expectMark '('
  if ← eatMark ')' then return []
  listUntil ')' typedValue

/-- A call, or nothing for a debug intrinsic. -/
def call (dest : Option String) : Read (Option Instruction) := do
  skipFlags
  repeatWhile (eatWordIn declarationWords)
  skipValueAttributes
  let result ← type
  if ← atMark '(' then skipGroup
  if let .value _ ← peek then fail .indirectCall
  let callee ← globalName
  if isDebugName callee then
    skipGroup
    skipCallAttributes
    return none
  let args ← callArguments
  skipCallAttributes
  if dest.isSome && result.isVoid then fail (.namedVoidCall callee)
  return some (.call dest result callee args)

/-- Incoming values of a phi; another one follows a comma and a bracket. -/
def incoming (t : Ty) : Nat → Read (List (Value × String))
  | 0 => fail .stalled
  | fuel + 1 => do
    expectMark '['
    let v ← value t
    expectMark ','
    let label ← localValue
    expectMark ']'
    if (← atMark ',') && (← peekAt 1) == .mark '[' then
      advance
      return (v, label) :: (← incoming t fuel)
    return [(v, label)]

/-- The rest of an instruction after its opcode. -/
def operation (dest : Option String) (opcode : String) (start : Place) :
    Read (Option Instruction) := do
  if let some op := BinaryOp.ofKeyword? opcode then
    skipFlags
    let (t, lhs, rhs) ← operandPair
    return some (.binary (← named dest opcode) op t lhs rhs)
  if let some op := CastOp.ofKeyword? opcode then
    skipFlags
    let (source, v) ← typedValue
    expectWord "to"
    let target ← type
    return some (.cast (← named dest opcode) op source v target)
  match opcode with
  | "fneg" =>
    skipFlags
    let (t, v) ← typedValue
    return some (.binary (← named dest opcode) .fsub t (.float Binary64.negativeZero) v)
  | "icmp" =>
    skipFlags
    let w ← word
    match IntPredicate.ofKeyword? w with
    | none => fail (.unknownPredicate opcode w)
    | some pred =>
      let (t, lhs, rhs) ← operandPair
      return some (.icmp (← named dest opcode) pred t lhs rhs)
  | "fcmp" =>
    skipFlags
    let w ← word
    match FloatPredicate.ofKeyword? w with
    | none => fail (.unknownPredicate opcode w)
    | some pred =>
      let (t, lhs, rhs) ← operandPair
      return some (.fcmp (← named dest opcode) pred t lhs rhs)
  | "alloca" =>
    let t ← type
    return some (.alloca (← named dest opcode) t)
  | "load" =>
    let _ ← eatWord "volatile"
    let (t, pointer) ← addressed .loadFromNonPointer
    return some (.load (← named dest opcode) t pointer)
  | "store" =>
    let _ ← eatWord "volatile"
    let (t, v) ← typedValue
    expectMark ','
    let (_, pointer) ← typedValue
    return some (.store t v pointer)
  | "getelementptr" => return some (← elementPtr dest)
  | "call" => call dest
  | "select" =>
    skipFlags
    let (_, condition) ← typedValue
    expectMark ','
    let (t, onTrue) ← typedValue
    expectMark ','
    let (_, onFalse) ← typedValue
    return some (.select (← named dest opcode) condition t onTrue onFalse)
  | "phi" =>
    skipFlags
    let t ← type
    let entries ← incoming t ((← get).rest.length + 1)
    return some (.phi (← named dest opcode) t entries)
  | _ => failAt start (.unsupportedInstruction opcode)

def destination? : Read (Option String) := do
  match ← peek with
  | .value name =>
    advance
    expectMark '='
    return some name
  | _ => return none

/-- An instruction, or nothing for one that is dropped. -/
def instruction : Read (Option Instruction) := do
  let dest ← destination?
  let _ ← eatWordIn ["tail", "musttail", "notail"]
  let start := (← get).place
  let opcode ← word
  operation dest opcode start

end Offload.Compiled.Read
