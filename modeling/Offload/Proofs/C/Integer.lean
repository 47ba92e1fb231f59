import Offload.C.Syntax
import Mathlib.Algebra.Order.Ring.Int
import Mathlib.Tactic.Ring

/-!
# Integer expressions

Values of integer expressions under the rules of C99 with a 32-bit `int`: integer promotions, the
usual arithmetic conversions, fixed-width types in two's complement, conversion to a signed type
modulo its size, arithmetic shift to the right, pointers of 64 bits. An expression has no value
where the language leaves the result undefined, as for signed overflow, or where it is not of an
integer type.
-/

namespace Offload.C

open Offload.Compiled (Width)

/-- `bool` and the fixed-width types; `int` is the signed one of 32 bits. -/
inductive IntType where
  | bool
  | fixed (w : Width) (signed : Bool)
deriving DecidableEq, Repr

namespace IntType

variable {t : IntType} {v : Int}

def int : IntType := .fixed .w32 true

def bits : IntType → Nat
  | bool => 1
  | fixed w _ => w.bits

def isSigned : IntType → Bool
  | bool => false
  | fixed _ signed => signed

/-- The type can represent the number. -/
def Holds (t : IntType) (v : Int) : Prop :=
  if t.isSigned then -2 ^ (t.bits - 1) ≤ v ∧ v < 2 ^ (t.bits - 1) else 0 ≤ v ∧ v < 2 ^ t.bits

instance (t : IntType) (v : Int) : Decidable (t.Holds v) :=
  inferInstanceAs (Decidable
    (if t.isSigned then -2 ^ (t.bits - 1) ≤ v ∧ v < 2 ^ (t.bits - 1) else 0 ≤ v ∧ v < 2 ^ t.bits))

def convert : IntType → Int → Int
  | bool, v => if v = 0 then 0 else 1
  | fixed w true, v => v.bmod (2 ^ w.bits)
  | fixed w false, v => v % 2 ^ w.bits

theorem convert_of_holds (h : t.Holds v) : t.convert v = v := by
  cases t with
  | bool =>
    change 0 ≤ v ∧ v < 2 ^ 1 at h
    simp only [convert]
    split_ifs <;> omega
  | fixed w signed =>
    cases signed with
    | false => exact Int.emod_eq_of_lt h.1 h.2
    | true =>
      obtain ⟨hlow, hhigh⟩ : -2 ^ (w.bits - 1) ≤ v ∧ v < 2 ^ (w.bits - 1) := h
      refine Int.bmod_eq_of_le ?_ ?_ <;> cases w <;> simp only [Width.bits] at * <;> omega

/-- The type that an operand has in an arithmetic expression. -/
def promote : IntType → IntType
  | fixed .w64 signed => fixed .w64 signed
  | fixed .w32 signed => fixed .w32 signed
  | _ => int

/-- The type in which two operands are combined: the wider of the promoted types, the unsigned one
of two of the same width. -/
def common (s t : IntType) : IntType :=
  match s.promote, t.promote with
  | fixed .w64 a, fixed .w64 b => fixed .w64 (a && b)
  | fixed .w64 a, _ => fixed .w64 a
  | _, fixed .w64 b => fixed .w64 b
  | a, b => fixed .w32 (a.isSigned && b.isSigned)

theorem common_comm (s t : IntType) : s.common t = t.common s := by
  rcases s with _ | ⟨_ | _ | _ | _ | _, _ | _⟩ <;>
    rcases t with _ | ⟨_ | _ | _ | _ | _, _ | _⟩ <;> rfl

/-- A wider type can represent as much, if it is signed alike or the narrower one is unsigned. -/
theorem holds_of_le {s t : IntType} (h : s.Holds v)
    (hst : s.isSigned = t.isSigned ∧ s.bits ≤ t.bits ∨ s.isSigned = false ∧ s.bits < t.bits) :
    t.Holds v := by
  have hpow : ∀ {m n : Nat}, m ≤ n → (2 : Int) ^ m ≤ 2 ^ n := fun h =>
    pow_le_pow_right₀ (by decide) h
  unfold Holds at h ⊢
  rcases hst with ⟨hsigned, hle⟩ | ⟨hsigned, hlt⟩
  · rw [← hsigned]
    have hbits := hpow hle
    have hless := hpow (Nat.sub_le_sub_right hle 1)
    split_ifs at h ⊢ <;> omega
  · rw [hsigned] at h
    have hbits := hpow hlt.le
    have hless := hpow (Nat.le_sub_one_of_lt hlt)
    simp only [Bool.false_eq_true, if_false] at h
    split_ifs <;> omega

/-- The common type of types that are signed alike can represent what either of them can. -/
theorem holds_common {s t : IntType} (hsigned : s.isSigned = t.isSigned)
    (h : s.Holds v) : (s.common t).Holds v := by
  refine holds_of_le h ?_
  revert hsigned
  rcases s with _ | ⟨_ | _ | _ | _ | _, _ | _⟩ <;> rcases t with _ | ⟨_ | _ | _ | _ | _, _ | _⟩ <;>
    decide

/-- The result of an operation as a value of the type: unsigned types wrap, and signed overflow is
undefined. -/
def settle (t : IntType) (v : Int) : Option Int :=
  if t.isSigned then if t.Holds v then some v else none else some (v % 2 ^ t.bits)

theorem settle_of_holds (h : t.Holds v) : t.settle v = some v := by
  unfold settle
  by_cases ht : t.isSigned
  · rw [if_pos ht, if_pos h]
  · rw [if_neg ht]
    rw [Holds, if_neg ht] at h
    rw [Int.emod_eq_of_lt h.1 h.2]

theorem settle_of_overflow (ht : t.isSigned) (h : ¬t.Holds v) : t.settle v = none := by
  unfold settle
  rw [if_pos ht, if_neg h]

/-- The number that a pattern of bits stands for. -/
def ofBits (t : IntType) (x : BitVec t.bits) : Int := if t.isSigned then x.toInt else x.toNat

/-- An operation on two values of the type. A remainder is defined where the quotient is. -/
def arithmetic (t : IntType) (op : BinaryOp) (a b : Int) : Option Int :=
  match op with
  | .add => t.settle (a + b)
  | .sub => t.settle (a - b)
  | .mul => t.settle (a * b)
  | .div => if b = 0 then none else t.settle (a.tdiv b)
  | .rem => if b = 0 then none else (t.settle (a.tdiv b)).map fun _ => a.tmod b
  | .and => some (t.ofBits (.ofInt _ a &&& .ofInt _ b))
  | .or => some (t.ofBits (.ofInt _ a ||| .ofInt _ b))
  | .xor => some (t.ofBits (.ofInt _ a ^^^ .ofInt _ b))
  | _ => none

/-- A shift of a value of the type by a number of places. -/
def shift (t : IntType) (op : BinaryOp) (a n : Int) : Option Int :=
  if n < 0 ∨ t.bits ≤ n then none
  else match op with
    | .shl => if t.isSigned ∧ a < 0 then none else t.settle (a * 2 ^ n.toNat)
    | .shr => some (a / 2 ^ n.toNat)
    | _ => none

end IntType

/-- What a comparison says of two numbers. -/
def BinaryOp.relates? (op : BinaryOp) (a b : Int) : Option Bool :=
  match op with
  | .eq => some (decide (a = b))
  | .ne => some (decide (a ≠ b))
  | .lt => some (decide (a < b))
  | .le => some (decide (a ≤ b))
  | .gt => some (decide (b < a))
  | .ge => some (decide (b ≤ a))
  | _ => none

structure IntValue where
  type : IntType
  value : Int
deriving DecidableEq, Repr

namespace IntValue

/-- Both operands of an operation are converted to their common type, except for a shift, whose
result has the promoted type of its left operand. -/
def binary (op : BinaryOp) (a b : IntValue) : Option IntValue :=
  match op with
  | .shl | .shr =>
    let t := a.type.promote
    (t.shift op a.value b.value).map (⟨t, ·⟩)
  | _ =>
    let t := a.type.common b.type
    (t.arithmetic op (t.convert a.value) (t.convert b.value)).map (⟨t, ·⟩)

/-- A comparison of two operands in their common type; what it says is an `int`. -/
def compare? (op : BinaryOp) (a b : IntValue) : Option IntValue :=
  let t := a.type.common b.type
  (op.relates? (t.convert a.value) (t.convert b.value)).map fun r => ⟨.int, if r then 1 else 0⟩

/-- The alternative that a condition selects, in the common type of both. -/
def select (c a b : IntValue) : IntValue :=
  let t := a.type.common b.type
  ⟨t, t.convert (if c.value = 0 then b.value else a.value)⟩

end IntValue

/-- The integer type that a type name stands for. -/
def TypeName.intType? (t : TypeName) : Option IntType :=
  match t.specifier, t.declarator with
  | .bool, .entity () => some .bool
  | .int w signed, .entity () => some (.fixed w signed)
  | .pointerInt, .entity () => some (.fixed .w64 false)
  | _, _ => none

/-- A decimal constant has the first of the types that can represent it, from `int` on or from the
64-bit type on if it has a suffix. A minus before it does not change the type. -/
def literalType? (v : Int) (long : Bool) : Option IntType :=
  if !long ∧ v.natAbs < 2 ^ 31 then some .int
  else if v.natAbs < 2 ^ 63 then some (.fixed .w64 true)
  else none

/-- The value of an integer expression, given those of the variables. Both alternatives of a
condition must have one, as the type depends on both. -/
def Expr.intValue? (env : String → Option IntValue) : Expr → Option IntValue
  | .ident x => env x
  | .int v long => (literalType? v long).map (⟨·, v⟩)
  | .binary op a b => do
    let x ← a.intValue? env
    let y ← b.intValue? env
    (x.compare? op y).or (x.binary op y)
  | .conditional c a b => do
    let x ← c.intValue? env
    let y ← a.intValue? env
    let z ← b.intValue? env
    return x.select y z
  | .cast t e => do
    let type ← t.intType?
    let x ← e.intValue? env
    return ⟨type, type.convert x.value⟩
  | .paren e => e.intValue? env
  | _ => none

end Offload.C
