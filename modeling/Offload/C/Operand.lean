import Offload.C.Emit

/-!
# Operands

Values of a module as expressions. A pointer is cast where the type it has in the source is not
the type that is wanted.
-/

namespace Offload.C

open Offload.Compiled
open Offload.Target

/-- What is known of the values of a function. -/
structure Scope where
  module : Module
  /-- Types of values, the latest first. -/
  types : List (String × Ty)
  /-- Address spaces of pointers, where they are known. -/
  spaces : List (String × AddressSpace)

/-- A constant global lives in constant memory and any other in global memory. -/
def globalSpace (g : Global) : AddressSpace := if g.isConstant then .constant else .global

namespace Scope

/-- The type of the expression that stands for a value. -/
def typeOf? (s : Scope) : Value → Option Ty
  | .var name => s.types.lookup name
  | .symbol name => (s.module.global? name).map fun g => .ptr g.type
  | _ => none

/-- The address space that a value points to. -/
def spaceOf? (s : Scope) : Value → Option AddressSpace
  | .var name => s.spaces.lookup name
  | .symbol name => (s.module.global? name).map globalSpace
  | _ => none

end Scope

/-- The least value of a width is written as a difference, because its magnitude alone is too large
for the type. -/
def intLiteral (v : Int) (w : Width) : Expr :=
  if w = .w1 then .int (if v = 0 then 0 else 1) false
  else if v = -9223372036854775808 then
    .paren (.binary .sub (.int (-9223372036854775807) true) (.int 1 false))
  else if w = .w64 then .int v true
  else if v = -2147483648 ∧ w = .w32 then
    .paren (.binary .sub (.int (-2147483647) false) (.int 1 false))
  else .int v false

def zeroInt : Expr := .int 0 false

namespace Writer

variable (w : Writer)

def floatLiteral (v : Binary64) (t : Ty) : Emit Expr := do
  if v.isNaN then
    w.needMath
    return .real "NAN"
  if v.isInfinite then
    w.needMath
    let infinity : Expr := .real "INFINITY"
    return if v.isNegative then .paren (.unary .neg infinity) else infinity
  return .real (v.scientific ++ (if t == .float then "f" else ""))

def intValue (v : Int) (t : Ty) : Emit Expr := do
  match t with
  | .float | .double => w.floatLiteral (Binary64.ofInt v) t
  | .int width => return intLiteral v width
  | .ptr _ => return .paren (.cast (← Emit.typeName t) (.cast pointerIntName (.int v false)))
  | _ => Emit.fail (.integerConstant t)

/-- A null, undefined or zero constant; all three are written as zero. -/
def zeroValue (v : Value) (t : Ty) : Emit Expr := do
  match t with
  | .ptr _ => return .paren (.cast (← Emit.typeName t) zeroInt)
  | .float => return .real "0.0f"
  | .double => return .real "0.0"
  | .int _ => return zeroInt
  | .struct _ => return .paren (.zeroStruct (← Emit.typeName t))
  | _ => Emit.fail (.constantOfType v t)

def value (v : Value) (t : Ty) : Emit Expr :=
  match v with
  | .var name => return .ident (localName name)
  | .symbol name => return .paren (.unary .address (.ident (symbolName name)))
  | .int n => w.intValue n t
  | .float x => w.floatLiteral x t
  | .bool b => return .int (if b then 1 else 0) false
  | .null | .undef | .zero => zeroValue v t
  | .array _ | .struct _ => Emit.fail .aggregateOperand

/-- Values of a list of typed operands. -/
def values (args : List (Ty × Value)) : Emit (List Expr) := args.mapM fun a => w.value a.2 a.1

/-- Qualifiers for a pointer to where a value points. -/
def spaceQualifiers (s : Scope) (v : Value) : List Qualifier :=
  match w.dialect with
  | .openCl => (s.spaceOf? v).toList.map .space
  | .c99 => []

def isName : Value → Bool
  | .var _ | .symbol _ => true
  | _ => false

/-- A pointer as an expression of type `pointee *`. -/
def pointerTo (s : Scope) (pointer : Value) (pointee : Ty) : Emit Expr := do
  let wanted := Ty.ptr pointee
  let e ← w.value pointer wanted
  if !isName pointer || s.typeOf? pointer == some wanted then return e
  return .paren (.cast (← Emit.declare (w.spaceQualifiers s pointer) wanted ()) e)

/-- What a pointer points to, read or written as `t`. -/
def deref (s : Scope) (pointer : Value) (t : Ty) : Emit Expr := do
  match pointer with
  | .symbol name =>
    if (s.module.global? name).map (·.type) == some t then return .ident (symbolName name)
    return .unary .deref (← w.pointerTo s pointer t)
  | _ => return .unary .deref (← w.pointerTo s pointer t)

def isAggregate : Ty → Bool
  | .array .. | .struct _ => true
  | _ => false

mutual

/-- The initial value of a global or of a part of one. -/
def initializer : Value → Ty → Emit Initializer
  | .array items, _ => return .list (← initializers items)
  | .struct items, _ => return .list (← initializers items)
  | .symbol name, _ => return .expr (.unary .address (.ident (symbolName name)))
  | .zero, t => if isAggregate t then return .zero else return .expr (← w.value .zero t)
  | .undef, t => if isAggregate t then return .zero else return .expr (← w.value .undef t)
  | v, t => return .expr (← w.value v t)

def initializers : List (Ty × Value) → Emit (List Initializer)
  | [] => return []
  | (t, v) :: rest => do
    let first ← initializer v t
    return first :: (← initializers rest)

end

end Writer

end Offload.C
