import Offload.C.Operand
import Offload.Proofs.Outcome
import Mathlib.Tactic.SplitIfs

/-!
# Operands as written

What is written for an operand depends on its value and type alone: it is the variable of a value,
or an expression that reads no variable.
-/

namespace Offload.C

open Offload.Compiled

/-- An expression of literals and addresses: it reads no variable. -/
def Expr.isConstant : Expr → Bool
  | .int .. | .real _ | .zeroStruct _ | .unary .address (.ident _) => true
  | .unary .neg e | .cast _ e | .paren e => e.isConstant
  | .binary _ a b => a.isConstant && b.isConstant
  | _ => false

section

variable {w : Writer} {n n' : Needs} {t : Ty} {e : Expr} {v : Value}

theorem gives_typeName {name : TypeName} (h : Gives (Emit.typeName t) n name n') :
    name = declarationOf [] t () := by
  simp only [Emit.typeName, Emit.declare] at h
  split at h
  · simp only [gives_bind, gives_modify, gives_pure] at h
    obtain ⟨-, m, -, rfl, -⟩ := h
    rfl
  · exact (gives_pure.mp h).1

/-- A floating-point constant, without what it needs from a header. -/
def floatExpr (x : Binary64) (t : Ty) : Expr :=
  if x.isNaN then .real "NAN"
  else if x.isInfinite then
    if x.isNegative then .paren (.unary .neg (.real "INFINITY")) else .real "INFINITY"
  else .real (x.scientific ++ (if t == .float then "f" else ""))

theorem isConstant_floatExpr (x : Binary64) (t : Ty) : (floatExpr x t).isConstant := by
  unfold floatExpr
  split_ifs <;> rfl

theorem isConstant_intLiteral (v : Int) (width : Width) : (intLiteral v width).isConstant := by
  unfold intLiteral
  split_ifs <;> rfl

theorem gives_floatLiteral {x : Binary64}
    (h : Gives (w.floatLiteral x t) n e n') : e = floatExpr x t := by
  unfold Writer.floatLiteral at h
  unfold floatExpr
  split at h
  · rename_i hnan
    simp only [gives_bind, gives_pure] at h
    obtain ⟨-, m, -, rfl, -⟩ := h
    rw [if_pos hnan]
  · rename_i hnan
    rw [if_neg hnan]
    split at h
    · rename_i hinf
      simp only [gives_bind, gives_pure] at h
      obtain ⟨-, m, -, rfl, -⟩ := h
      rw [if_pos hinf]
    · rename_i hinf
      rw [if_neg hinf]
      exact (gives_pure.mp h).1

/-- What a constant integer is written as, where it can be. -/
def intExpr? (v : Int) : Ty → Option Expr
  | .float => some (floatExpr (Binary64.ofInt v) .float)
  | .double => some (floatExpr (Binary64.ofInt v) .double)
  | .int width => some (intLiteral v width)
  | .ptr pointee =>
    some (.paren (.cast (declarationOf [] (.ptr pointee) ()) (.cast pointerIntName (.int v false))))
  | _ => none

/-- What a zero of any kind is written as, where it can be. -/
def zeroExpr? : Ty → Option Expr
  | .ptr pointee => some (.paren (.cast (declarationOf [] (.ptr pointee) ()) zeroInt))
  | .float => some (.real "0.0f")
  | .double => some (.real "0.0")
  | .int _ => some zeroInt
  | .struct name => some (.paren (.zeroStruct (declarationOf [] (.struct name) ())))
  | _ => none

/-- The expression that an operand is written as, without what it needs from elsewhere. -/
def operandExpr? (v : Value) (t : Ty) : Option Expr :=
  match v with
  | .var name => some (.ident (localName name))
  | .symbol name => some (.paren (.unary .address (.ident (symbolName name))))
  | .int v => intExpr? v t
  | .float x => some (floatExpr x t)
  | .bool b => some (.int (if b then 1 else 0) false)
  | .null | .undef | .zero => zeroExpr? t
  | .array _ | .struct _ => none

theorem gives_intValue {v : Int} (h : Gives (w.intValue v t) n e n') : intExpr? v t = some e := by
  unfold Writer.intValue at h
  split at h
  · rw [gives_floatLiteral h]
    rfl
  · rw [gives_floatLiteral h]
    rfl
  · rw [(gives_pure.mp h).1]
    rfl
  · simp only [gives_bind, gives_pure] at h
    obtain ⟨name, m, hname, rfl, -⟩ := h
    rw [gives_typeName hname]
    rfl
  · exact absurd h not_gives_throw

theorem gives_zeroValue (h : Gives (Writer.zeroValue v t) n e n') : zeroExpr? t = some e := by
  unfold Writer.zeroValue at h
  split at h
  · simp only [gives_bind, gives_pure] at h
    obtain ⟨name, m, hname, rfl, -⟩ := h
    rw [gives_typeName hname]
    rfl
  · rw [(gives_pure.mp h).1]
    rfl
  · rw [(gives_pure.mp h).1]
    rfl
  · rw [(gives_pure.mp h).1]
    rfl
  · simp only [gives_bind, gives_pure] at h
    obtain ⟨name, m, hname, rfl, -⟩ := h
    rw [gives_typeName hname]
    rfl
  · exact absurd h not_gives_throw

theorem gives_value (h : Gives (w.value v t) n e n') : operandExpr? v t = some e := by
  unfold Writer.value at h
  cases v with
  | var name => rw [(gives_pure.mp h).1]; rfl
  | symbol name => rw [(gives_pure.mp h).1]; rfl
  | int v => exact gives_intValue h
  | float x => rw [gives_floatLiteral h]; rfl
  | bool b => rw [(gives_pure.mp h).1]; rfl
  | null => exact gives_zeroValue h
  | undef => exact gives_zeroValue h
  | zero => exact gives_zeroValue h
  | array items => exact absurd h not_gives_throw
  | struct items => exact absurd h not_gives_throw

/-- An operand is the variable of a value or reads no variable at all. -/
theorem operandExpr?_cases (h : operandExpr? v t = some e) :
    (∃ name, v = .var name ∧ e = .ident (localName name)) ∨ e.isConstant := by
  cases v with
  | var name => exact .inl ⟨name, rfl, (Option.some.inj h).symm⟩
  | symbol name => cases h; exact .inr rfl
  | int v =>
    right
    cases t <;> cases h
    · exact isConstant_intLiteral ..
    · exact isConstant_floatExpr ..
    · exact isConstant_floatExpr ..
    · rfl
  | float x => cases h; exact .inr (isConstant_floatExpr ..)
  | bool b => cases h; exact .inr rfl
  | null => right; cases t <;> cases h <;> rfl
  | undef => right; cases t <;> cases h <;> rfl
  | zero => right; cases t <;> cases h <;> rfl
  | array items => cases h
  | struct items => cases h

end

/-- A writer of C99 for the machine at hand. -/
def hostWriter : Writer where
  dialect := .c99
  triple := Target.Triple.host
  options := Target.TargetOptions.ofCodegen {}
  verbose := false
  library := Target.Library.ofTriple Target.Triple.host
  kernels := []

end Offload.C
