import Offload.C.Operand

/-!
# Instructions as expressions

Integer arithmetic is done in the unsigned type of its width unless the operation is signed, and
the result is cast back, so that wrapping is the same on every host.
-/

namespace Offload.C

open Offload.Compiled
open Offload.Target

/-- The operator of an integer operation and whether it works on signed operands. -/
def integerOp : Compiled.BinaryOp → BinaryOp × Bool
  | .add => (.add, false)
  | .sub => (.sub, false)
  | .mul => (.mul, false)
  | .shl => (.shl, false)
  | .and => (.and, false)
  | .or => (.or, false)
  | .xor => (.xor, false)
  | .udiv => (.div, false)
  | .urem => (.rem, false)
  | .lshr => (.shr, false)
  | .sdiv => (.div, true)
  | .srem => (.rem, true)
  | _ => (.shr, true)

def floatOp : Compiled.BinaryOp → BinaryOp
  | .fadd => .add
  | .fsub => .sub
  | .fmul => .mul
  | _ => .div

def comparison : IntPredicate → BinaryOp
  | .eq => .eq
  | .ne => .ne
  | .ugt | .sgt => .gt
  | .uge | .sge => .ge
  | .ult | .slt => .lt
  | .ule | .sle => .le

/-- An unordered comparison is the negation of the opposite ordered one. -/
def floatComparison (p : FloatPredicate) (a b : Expr) : Expr :=
  let negated (e : Expr) : Expr := .unary .not (.paren e)
  let both (op : BinaryOp) (e f : Expr) : Expr := .binary op e f
  let apart := both .lor (.binary .lt a b) (.binary .gt a b)
  match p with
  | .never => .int 0 false
  | .always => .int 1 false
  | .oeq => .binary .eq a b
  | .ogt => .binary .gt a b
  | .oge => .binary .ge a b
  | .olt => .binary .lt a b
  | .ole => .binary .le a b
  | .one => .paren apart
  | .ord => .paren (both .land (.binary .eq a a) (.binary .eq b b))
  | .uno => .paren (both .lor (.binary .ne a a) (.binary .ne b b))
  | .ueq => negated apart
  | .ugt => negated (.binary .le a b)
  | .uge => negated (.binary .lt a b)
  | .ult => negated (.binary .ge a b)
  | .ule => negated (.binary .gt a b)
  | .une => .binary .ne a b

/-- A bit pattern can be read as another type of the same size. -/
def sameWidth (source target : Ty) : Bool :=
  match source, target with
  | .int .w32, .float | .float, .int .w32 | .int .w64, .double | .double, .int .w64 => true
  | _, _ => source == target

namespace Writer

variable (w : Writer)

def binary (op : Compiled.BinaryOp) (t : Ty) (lhs rhs : Value) : Emit Expr := do
  let a ← w.value lhs t
  let b ← w.value rhs t
  if op == .frem then
    w.needMath
    return .call (if t == .float then "fmodf" else "fmod") [a, b]
  if op.isFloat then return .binary (floatOp op) a b
  let (symbol, isSigned) := integerOp op
  let result ← Emit.typeName t
  let operand ← if isSigned then pure result else Emit.unsignedName t
  return .cast result (.paren (.binary symbol (.cast operand a) (.cast operand b)))

def compareInts (p : IntPredicate) (t : Ty) (lhs rhs : Value) : Emit Expr := do
  let a ← w.value lhs t
  let b ← w.value rhs t
  if p.isUnsigned && t.isInt then
    let operand ← Emit.unsignedName t
    return .binary (comparison p) (.cast operand a) (.cast operand b)
  return .binary (comparison p) a b

def compareFloats (p : FloatPredicate) (t : Ty) (lhs rhs : Value) : Emit Expr := do
  let a ← w.value lhs t
  let b ← w.value rhs t
  return floatComparison p a b

/-- Convert an operand that is already written. -/
def castExpr (op : CastOp) (source : Ty) (e : Expr) (target : Ty) : Emit Expr := do
  let result ← Emit.typeName target
  match op with
  | .trunc =>
    if target == .int .w1 then return .cast boolName (.paren (.binary .and e (.int 1 false)))
    return .cast result (.cast (← Emit.unsignedName target) e)
  | .fptoui => return .cast result (.cast (← Emit.unsignedName target) e)
  | .zext =>
    if source == .int .w1 then return .cast result e
    return .cast result (.cast (← Emit.unsignedName source) e)
  | .uitofp => return .cast result (.cast (← Emit.unsignedName source) e)
  | .sext =>
    if source == .int .w1 then
      return .cast result (.paren (.conditional e (.int (-1) false) zeroInt))
    return .cast result (.cast (← Emit.typeName source) e)
  | .sitofp => return .cast result (.cast (← Emit.typeName source) e)
  | .fptrunc | .fpext | .fptosi => return .cast result e
  | .ptrtoint | .inttoptr => return .cast result (.cast pointerIntName e)
  | .bitcast =>
    if source.isPtr && target.isPtr then return .cast result e
    if !sameWidth source target then Emit.fail (.bitcast source target)
    match w.dialect with
    | .openCl => return .reinterpret result result e
    | .c99 => return .reinterpret (← Emit.typeName source) result e

/-- One step of an access path: the type reached and the expression for it. -/
def accessStep (s : Scope) (at_ : Ty × Expr) (index : Ty × Value) : Emit (Ty × Expr) := do
  match at_.1 with
  | .array _ element => return (element, .index at_.2 (← w.value index.2 index.1))
  | .struct name =>
    match index.2 with
    | .int i =>
      if i < 0 then Emit.fail (.indexedBy name index.2)
      match (s.module.struct? name).bind fun d => d.fields[i.toNat]? with
      | some t => return (t, .member at_.2 (fieldName i.toNat))
      | none => Emit.fail (.noField name i.toNat)
    | _ => Emit.fail (.indexedBy name index.2)
  | t => Emit.fail (.stepsIntoScalar t)

/-- The address of an element: the first index steps over the pointer. -/
def elementAddress (s : Scope) (source : Ty) (base : Value) (indices : List (Ty × Value)) :
    Emit Expr := do
  let pointer ← w.pointerTo s base source
  match indices with
  | [] => return pointer
  | first :: rest =>
    let start : Expr := .index (.paren pointer) (← w.value first.2 first.1)
    let (_, access) ← rest.foldlM (w.accessStep s) (source, start)
    return .unary .address access

/-- An argument; where an untyped pointer is expected, a typed one is cast. -/
def argument (s : Scope) (arg : Ty × Value) : Emit Expr := do
  let (t, v) := arg
  let e ← w.value v t
  let isTyped := isName v && s.typeOf? v != some .untypedPtr
  if t == .untypedPtr && isTyped then
    return .cast (declarationOf (w.spaceQualifiers s v) .untypedPtr ()) e
  return e

end Writer

end Offload.C
