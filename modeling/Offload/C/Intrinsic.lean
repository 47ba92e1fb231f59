import Offload.C.Expression

/-!
# Intrinsics

Calls of `llvm.` functions are written as operators or as calls of library functions; hints to the
optimizer are dropped.
-/

namespace Offload.C

open Offload.Compiled
open Offload.Target

def intrinsicMark : List Char := "llvm.".toList

def isIntrinsic (callee : String) : Bool := intrinsicMark.isPrefixOf callee.toList

/-- Strip the mark for as often as it is repeated. -/
def stripMark : Nat → List Char → List Char
  | 0, name => name
  | fuel + 1, name =>
    if intrinsicMark.isPrefixOf name then stripMark fuel (name.drop intrinsicMark.length) else name

def intrinsicName (callee : String) : List Char := stripMark callee.length callee.toList

/-- The part of the name before the first dot; types follow it. -/
def intrinsicFamily (callee : String) : String :=
  String.ofList ((intrinsicName callee).takeWhile (· != '.'))

/-- Hints generate no code. -/
def isHint (callee : String) : Bool :=
  ["lifetime", "dbg", "assume", "donothing"].contains (intrinsicFamily callee) ||
    "experimental.noalias.scope.decl".toList.isPrefixOf (intrinsicName callee)

def intrinsicArity? (family : String) : Option Nat :=
  if ["fabs", "sqrt", "floor", "ceil", "trunc", "round", "sin", "cos", "exp", "log", "abs"].contains
      family then some 1
  else if ["pow", "minnum", "maxnum", "copysign", "smax", "smin", "umax", "umin"].contains
      family then some 2
  else if ["fma", "fmuladd", "memcpy", "memmove", "memset"].contains family then some 3
  else none

/-- The library function for a family of mathematical intrinsics. -/
def mathFunction (w : Writer) (family : String) (t : Ty) : String :=
  let base := match family with
    | "minnum" => "fmin"
    | "maxnum" => "fmax"
    | _ => family
  if w.dialect == .c99 && t == .float then base ++ "f" else base

/-- The greater or smaller of two operands. -/
def pickExpr (op : BinaryOp) (a b x y : Expr) : Expr :=
  .paren (.conditional (.binary op a b) x y)

namespace Writer

variable (w : Writer)

def memoryHeader (family : String) : Emit Header :=
  let header := match w.dialect with
    | .c99 => w.library.header? family
    | .openCl => none
  match header with
  | some h => return h
  | none => Emit.fail (.unavailable family)

/-- An intrinsic with enough operands, the first of type `t`. -/
def intrinsicExpr (callee family : String) (arity : Nat) (t : Ty) (ops : List Expr) :
    Emit Expr := do
  match family, ops with
  | "fmuladd", a :: b :: c :: _ => return .binary .add (.binary .mul a b) c
  | "memcpy", a :: b :: c :: _ | "memmove", a :: b :: c :: _ | "memset", a :: b :: c :: _ =>
    Emit.needHeader (← w.memoryHeader family)
    return .call family [a, b, c]
  | "smax", a :: b :: _ => return pickExpr .gt a b a b
  | "smin", a :: b :: _ => return pickExpr .lt a b a b
  | "umax", a :: b :: _ =>
    let u ← Emit.unsignedName t
    return pickExpr .gt (.cast u a) (.cast u b) a b
  | "umin", a :: b :: _ =>
    let u ← Emit.unsignedName t
    return pickExpr .lt (.cast u a) (.cast u b) a b
  | "abs", a :: _ =>
    let result ← Emit.typeName t
    let u ← Emit.unsignedName t
    let isNegative : Expr := .binary .lt a zeroInt
    return .cast result
      (.paren (.conditional isNegative (.unary .neg (.cast u a)) (.cast u a)))
  | _, _ =>
    if !t.isFloat then Emit.fail (.intrinsicType callee t)
    w.needMath
    return .call (mathFunction w family t) (ops.take arity)

/-- The expression for an intrinsic, or nothing for a hint. -/
def intrinsic (callee : String) (args : List (Ty × Value)) : Emit (Option Expr) := do
  if isHint callee then return none
  let ops ← w.values args
  let family := intrinsicFamily callee
  match intrinsicArity? family with
  | none => Emit.fail (.unsupportedIntrinsic callee)
  | some arity =>
    match args with
    | first :: _ =>
      if ops.length < arity then Emit.fail (.intrinsicArity callee arity ops.length)
      return some (← w.intrinsicExpr callee family arity first.1 ops)
    | [] => Emit.fail (.intrinsicArity callee arity 0)

end Writer

end Offload.C
