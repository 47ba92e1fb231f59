import Offload.C.Function
import Offload.Proofs.C.Integer
import Offload.Proofs.C.Operand
import Mathlib.Tactic.IntervalCases

/-!
# Integer arithmetic as written

An operation on integers of some width is written as an operation on C operands cast to a type of
that width. Its value is the one that the module prescribes, with two exceptions, which both come
from the promotion of narrow operands to `int`: a product of two 16-bit numbers may overflow `int`,
and the sum of two bits is turned into a bit by comparing it with zero.
-/

namespace Offload.Compiled

/-- The result of an integer operation on bit vectors, where it is defined. -/
def BinaryOp.result? (op : BinaryOp) {n : Nat} (x y : BitVec n) : Option (BitVec n) :=
  match op with
  | .add => some (x + y)
  | .sub => some (x - y)
  | .mul => some (x * y)
  | .and => some (x &&& y)
  | .or => some (x ||| y)
  | .xor => some (x ^^^ y)
  | .shl => if y.toNat < n then some (x <<< y.toNat) else none
  | .lshr => if y.toNat < n then some (x >>> y.toNat) else none
  | .ashr => if y.toNat < n then some (x.sshiftRight y.toNat) else none
  | .udiv => if y = 0 then none else some (x / y)
  | .urem => if y = 0 then none else some (x % y)
  | .sdiv => if y = 0 ∨ (x = .intMin n ∧ y = -1) then none else some (x.sdiv y)
  | .srem => if y = 0 ∨ (x = .intMin n ∧ y = -1) then none else some (x.srem y)
  | .fadd | .fsub | .fmul | .fdiv | .frem => none

end Offload.Compiled

namespace Offload.C

open Offload.Compiled (Width Value Ty)

variable {v : Int} {env : String → Option IntValue}

/-- The type of a variable that holds an integer of some width. -/
def intTypeOf : Width → IntType
  | .w1 => .bool
  | w => .fixed w true

/-- What a variable holds for an integer: the signed number, or the bit. -/
def encode (w : Width) (x : BitVec w.bits) : IntValue :=
  ⟨intTypeOf w, if w = .w1 then x.toNat else x.toInt⟩

theorem intTypeOf_of_ne {w : Width} (hw : w ≠ .w1) : intTypeOf w = .fixed w true := by
  cases w <;> first | exact absurd rfl hw | rfl

theorem holds_encode {w : Width} (x : BitVec w.bits) : (intTypeOf w).Holds (encode w x).value := by
  by_cases hw : w = .w1
  · subst hw
    have hlt : (x.toNat : Int) < 2 ^ 1 := by exact_mod_cast x.isLt
    exact ⟨Int.natCast_nonneg _, hlt⟩
  · rw [intTypeOf_of_ne hw, encode, if_neg hw]
    exact ⟨x.le_toInt, x.toInt_lt⟩

/-- An operand stands for an integer of some width: through the variable of a value, or as a
constant of that width. -/
inductive Denotes (env : String → Option IntValue) (w : Width) : Value → BitVec w.bits → Prop
  | var {name : String} {x : BitVec w.bits} (h : env (localName name) = some (encode w x)) :
    Denotes env w (.var name) x
  | int {k : Int} (hlow : -2 ^ (w.bits - 1) ≤ k) (hhigh : k < 2 ^ w.bits) (hlong : k < 2 ^ 63) :
    Denotes env w (.int k) (.ofInt w.bits k)
  | bool {b : Bool} (hw : w = .w1) : Denotes env w (.bool b) (.ofNat w.bits b.toNat)
  | zero : Denotes env w .zero 0

/-! ### Operations on operands that are already cast -/

section

variable {w : Width} {x y : BitVec w.bits}

/-- The type in which two unsigned operands are combined. -/
def carrier (w : Width) : IntType := (IntType.fixed w false).promote

/-- There is a number, and it is right modulo the size of the operands. -/
def Settles (z : BitVec w.bits) (r : Option Int) : Prop :=
  ∃ v, r = some v ∧ v.bmod (2 ^ w.bits) = z.toInt

/-- The carrier represents every number that the operands can be added, subtracted or shifted to; a
product may be too large for it at 16 bits. -/
theorem settles_carrier {z : BitVec w.bits} (hw : w ≠ .w1)
    (h : w = .w8 ∨ w = .w16 → -2 ^ 31 ≤ v ∧ v < 2 ^ 31) (hmod : v.bmod (2 ^ w.bits) = z.toInt) :
    Settles z ((carrier w).settle v) := by
  cases w with
  | w1 => exact absurd rfl hw
  | w8 => exact ⟨v, IntType.settle_of_holds (h (.inl rfl)), hmod⟩
  | w16 => exact ⟨v, IntType.settle_of_holds (h (.inr rfl)), hmod⟩
  | w32 | w64 => exact ⟨_, rfl, (Int.emod_bmod ..).trans hmod⟩

theorem toNat_lt_of_narrow (h : w = .w8 ∨ w = .w16) (x : BitVec w.bits) : x.toNat < 2 ^ 16 := by
  rcases h with rfl | rfl
  · exact x.isLt.trans_le (by decide)
  · exact x.isLt

theorem settles_add (hw : w ≠ .w1) (x y : BitVec w.bits) :
    Settles (x + y) ((carrier w).arithmetic .add x.toNat y.toNat) := by
  refine settles_carrier hw (fun h => ?_) ?_
  · have hx := toNat_lt_of_narrow h x
    have hy := toNat_lt_of_narrow h y
    omega
  · rw [BitVec.toInt_add, x.toInt_eq_toNat_bmod, y.toInt_eq_toNat_bmod, Int.bmod_add_bmod,
      Int.add_bmod_bmod]

theorem settles_sub (hw : w ≠ .w1) (x y : BitVec w.bits) :
    Settles (x - y) ((carrier w).arithmetic .sub x.toNat y.toNat) := by
  refine settles_carrier hw (fun h => ?_) ?_
  · have hx := toNat_lt_of_narrow h x
    have hy := toNat_lt_of_narrow h y
    omega
  · rw [BitVec.toInt_sub, x.toInt_eq_toNat_bmod, y.toInt_eq_toNat_bmod, Int.bmod_sub_bmod,
      Int.sub_bmod_bmod]

theorem settles_mul (hw : w ≠ .w1) (x y : BitVec w.bits)
    (h16 : w = .w16 → x.toNat * y.toNat < 2 ^ 31) :
    Settles (x * y) ((carrier w).arithmetic .mul x.toNat y.toNat) := by
  have hfits : w = .w8 ∨ w = .w16 → x.toNat * y.toNat < 2 ^ 31 := by
    rintro (rfl | rfl)
    · have hle : x.toNat * y.toNat ≤ 255 * 255 :=
        Nat.mul_le_mul (Nat.le_of_lt_succ x.isLt) (Nat.le_of_lt_succ y.isLt)
      omega
    · exact h16 rfl
  refine settles_carrier hw (fun h => ?_) ?_
  · have hlt : (x.toNat : Int) * y.toNat < 2 ^ 31 := by exact_mod_cast hfits h
    have hnonneg : 0 ≤ (x.toNat : Int) * y.toNat := by positivity
    omega
  · rw [BitVec.toInt_mul, x.toInt_eq_toNat_bmod, y.toInt_eq_toNat_bmod, Int.bmod_mul_bmod,
      Int.mul_bmod_bmod]

theorem holds_carrier (hw : w ≠ .w1) (h : 0 ≤ v) (hv : v < 2 ^ w.bits) : (carrier w).Holds v := by
  cases w with
  | w1 => exact absurd rfl hw
  | w8 | w16 =>
    simp only [Width.bits] at hv
    change -2 ^ 31 ≤ v ∧ v < 2 ^ 31
    omega
  | w32 | w64 => exact ⟨h, hv⟩

theorem convert_carrier (hw : w ≠ .w1) (z : BitVec w.bits) :
    (carrier w).settle z.toNat = some (z.toNat : Int) ∧ (carrier w).convert z.toNat = z.toNat := by
  have hlt : (z.toNat : Int) < 2 ^ w.bits := by exact_mod_cast z.isLt
  have hholds := holds_carrier hw (Int.natCast_nonneg _) hlt
  exact ⟨IntType.settle_of_holds hholds, IntType.convert_of_holds hholds⟩

/-- A number below the size of the operands is its own result. -/
theorem settles_toNat (z : BitVec w.bits) : Settles z (some (z.toNat : Int)) :=
  ⟨_, rfl, z.toInt_eq_toNat_bmod.symm⟩

theorem toNat_cast_ne_zero (hy : y ≠ 0) : (y.toNat : Int) ≠ 0 := fun h =>
  hy (BitVec.eq_of_toNat_eq (by simpa using h))

theorem settles_div (hw : w ≠ .w1) (x y : BitVec w.bits) (hy : y ≠ 0) :
    Settles (x / y) ((carrier w).arithmetic .div x.toNat y.toNat) := by
  have hsettle := (convert_carrier hw (x / y)).1
  rw [BitVec.toNat_udiv] at hsettle
  rw [IntType.arithmetic, if_neg (toNat_cast_ne_zero hy)]
  exact hsettle ▸ BitVec.toNat_udiv (x := x) (y := y) ▸ settles_toNat _

theorem settles_rem (hw : w ≠ .w1) (x y : BitVec w.bits) (hy : y ≠ 0) :
    Settles (x % y) ((carrier w).arithmetic .rem x.toNat y.toNat) := by
  have hsettle := (convert_carrier hw (x / y)).1
  rw [BitVec.toNat_udiv] at hsettle
  rw [IntType.arithmetic, if_neg (toNat_cast_ne_zero hy)]
  change Settles _ (((carrier w).settle ((x.toNat / y.toNat : Nat) : Int)).map _)
  have hvalue := settles_toNat (x % y)
  rw [BitVec.toNat_umod] at hvalue
  rw [hsettle]
  exact hvalue

theorem bits_le_carrier (w : Width) : w.bits ≤ (carrier w).bits := by cases w <;> decide

theorem ofBits_setWidth (hw : w ≠ .w1) (z : BitVec w.bits) :
    (carrier w).ofBits (z.setWidth _) = z.toNat := by
  have hnat : (z.setWidth (carrier w).bits).toNat = z.toNat :=
    BitVec.toNat_setWidth_of_le (bits_le_carrier w)
  have hsigned : (carrier w).isSigned → 2 * 2 ^ w.bits ≤ 2 ^ (carrier w).bits := by
    cases w <;> first | exact absurd rfl hw | decide
  unfold IntType.ofBits
  split_ifs with hs
  · have hlt := z.isLt
    have hle := hsigned hs
    rw [BitVec.toInt_eq_toNat_of_lt (by omega), hnat]
  · rw [hnat]

theorem unsigned_bitwise (hw : w ≠ .w1) (x y : BitVec w.bits) :
    (carrier w).arithmetic .and x.toNat y.toNat = some ((x &&& y).toNat : Int) ∧
    (carrier w).arithmetic .or x.toNat y.toNat = some ((x ||| y).toNat : Int) ∧
    (carrier w).arithmetic .xor x.toNat y.toNat = some ((x ^^^ y).toNat : Int) := by
  have hbits : ∀ z : BitVec w.bits, BitVec.ofInt (carrier w).bits z.toNat = z.setWidth _ := by
    intro z
    rw [BitVec.ofInt_natCast, BitVec.ofNat_toNat]
  simp only [IntType.arithmetic, hbits, ← BitVec.setWidth_and, ← BitVec.setWidth_or,
    ← BitVec.setWidth_xor, ofBits_setWidth hw, and_self]

theorem count_fits (hy : y.toNat < w.bits) :
    ¬((y.toNat : Int) < 0 ∨ ((carrier w).bits : Int) ≤ y.toNat) := by
  have hle := bits_le_carrier w
  omega

theorem settles_shl (hw : w ≠ .w1) (x y : BitVec w.bits) (hy : y.toNat < w.bits) :
    Settles (x <<< y.toNat) ((carrier w).shift .shl x.toNat y.toNat) := by
  have hleft : ¬((carrier w).isSigned = true ∧ (x.toNat : Int) < 0) := by omega
  have hfits : w = .w8 ∨ w = .w16 → x.toNat * 2 ^ y.toNat < 2 ^ 31 := by
    intro h
    have hx := toNat_lt_of_narrow h x
    have hpow : 2 ^ y.toNat ≤ 2 ^ 15 := by
      refine Nat.pow_le_pow_right (by decide) (Nat.le_of_lt_succ (hy.trans_le ?_))
      rcases h with rfl | rfl <;> decide
    calc x.toNat * 2 ^ y.toNat ≤ (2 ^ 16 - 1) * 2 ^ 15 :=
          Nat.mul_le_mul (Nat.le_sub_one_of_lt hx) hpow
      _ < 2 ^ 31 := by decide
  rw [IntType.shift, if_neg (count_fits hy)]
  change Settles _ (if _ then none else (carrier w).settle _)
  rw [if_neg hleft, Int.toNat_natCast]
  refine settles_carrier hw (fun h => ?_) ?_
  · have hlt : (x.toNat : Int) * 2 ^ y.toNat < 2 ^ 31 := by exact_mod_cast hfits h
    have hnonneg : 0 ≤ (x.toNat : Int) * 2 ^ y.toNat := by positivity
    omega
  · rw [BitVec.toInt_shiftLeft, Nat.shiftLeft_eq]
    push_cast
    rfl

theorem settles_shr (x y : BitVec w.bits) (hy : y.toNat < w.bits) :
    Settles (x >>> y.toNat) ((carrier w).shift .shr x.toNat y.toNat) := by
  have hvalue : (carrier w).shift .shr x.toNat y.toNat = some ((x >>> y.toNat).toNat : Int) := by
    rw [IntType.shift, if_neg (count_fits hy), BitVec.toNat_ushiftRight, Nat.shiftRight_eq_div_pow]
    simp
  exact hvalue ▸ settles_toNat _

/-! ### Signed operations -/

/-- The type in which two signed operands are combined. -/
def signedCarrier (w : Width) : IntType := (IntType.fixed w true).promote

theorem holds_signedCarrier (hw : w ≠ .w1) (hlow : -2 ^ (w.bits - 1) ≤ v)
    (hhigh : v < 2 ^ (w.bits - 1)) : (signedCarrier w).Holds v := by
  cases w with
  | w1 => exact absurd rfl hw
  | w8 | w16 | w32 =>
    change -2 ^ 31 ≤ v ∧ v < 2 ^ 31
    simp only [Width.bits] at hlow hhigh
    omega
  | w64 => exact ⟨hlow, hhigh⟩

theorem settle_tdiv (hw : w ≠ .w1) (x y : BitVec w.bits) (hover : ¬(x = .intMin _ ∧ y = -1)) :
    (signedCarrier w).settle (x.toInt.tdiv y.toInt) = some (x.sdiv y).toInt := by
  rw [← BitVec.toInt_sdiv_of_ne_or_ne x y (not_and_or.mp hover)]
  exact IntType.settle_of_holds (holds_signedCarrier hw (x.sdiv y).le_toInt (x.sdiv y).toInt_lt)

theorem toInt_ne_zero {y : BitVec w.bits} (hy : y ≠ 0) : y.toInt ≠ 0 := by
  intro h
  exact hy (BitVec.eq_of_toInt_eq (by simpa using h))

theorem signed_div (hw : w ≠ .w1) (x y : BitVec w.bits) (hy : y ≠ 0)
    (hover : ¬(x = .intMin _ ∧ y = -1)) :
    (signedCarrier w).arithmetic .div x.toInt y.toInt = some (x.sdiv y).toInt := by
  rw [IntType.arithmetic, if_neg (toInt_ne_zero hy), settle_tdiv hw x y hover]

theorem signed_rem (hw : w ≠ .w1) (x y : BitVec w.bits) (hy : y ≠ 0)
    (hover : ¬(x = .intMin _ ∧ y = -1)) :
    (signedCarrier w).arithmetic .rem x.toInt y.toInt = some (x.srem y).toInt := by
  rw [IntType.arithmetic, if_neg (toInt_ne_zero hy), settle_tdiv hw x y hover, BitVec.toInt_srem]
  rfl

theorem signed_shr (hw : w ≠ .w1) (x y : BitVec w.bits) (hy : y.toNat < w.bits) :
    (signedCarrier w).shift .shr x.toInt y.toInt = some (x.sshiftRight y.toNat).toInt := by
  have hcount : y.toInt = y.toNat := by
    refine BitVec.toInt_eq_toNat_of_lt ?_
    cases w <;> simp only [Width.bits] at hy ⊢ <;> omega
  have hle : w.bits ≤ (signedCarrier w).bits := by cases w <;> decide
  have hin : ¬((y.toNat : Int) < 0 ∨ ((signedCarrier w).bits : Int) ≤ y.toNat) := by omega
  rw [hcount, IntType.shift, if_neg hin, BitVec.toInt_sshiftRight, Int.shiftRight_eq_div_pow]
  simp

/-! ### The operation on cast operands, cast back -/

/-- An operand cast to the type of its width, signed or not. -/
def operandOf (signed : Bool) (w : Width) (x : BitVec w.bits) : IntValue :=
  if w = .w1 then ⟨.bool, x.toNat⟩
  else if signed then ⟨.fixed w true, x.toInt⟩
  else ⟨.fixed w false, x.toNat⟩

def combine (op : Compiled.BinaryOp) (w : Width) (x y : BitVec w.bits) : Option IntValue :=
  ((operandOf (integerOp op).2 w x).binary (integerOp op).1 (operandOf (integerOp op).2 w y)).map
    fun r => ⟨intTypeOf w, (intTypeOf w).convert r.value⟩

variable {op : Compiled.BinaryOp} {z : BitVec w.bits}

theorem combine_of_bmod (hw : w ≠ .w1) {r : IntValue}
    (hr : (operandOf (integerOp op).2 w x).binary (integerOp op).1
      (operandOf (integerOp op).2 w y) = some r)
    (hmod : r.value.bmod (2 ^ w.bits) = z.toInt) : combine op w x y = some (encode w z) := by
  unfold combine encode
  rw [hr, Option.map_some, if_neg hw, ← hmod]
  cases w <;> first | exact absurd rfl hw | rfl

theorem operandOf_unsigned (hw : w ≠ .w1) (x : BitVec w.bits) :
    operandOf false w x = ⟨.fixed w false, x.toNat⟩ := by
  simp [operandOf, hw]

theorem operandOf_signed (hw : w ≠ .w1) (x : BitVec w.bits) :
    operandOf true w x = ⟨.fixed w true, x.toInt⟩ := by
  simp [operandOf, hw]

theorem binary_unsigned (hw : w ≠ .w1) {sym : BinaryOp} (hop : sym ≠ .shl ∧ sym ≠ .shr) :
    (operandOf false w x).binary sym (operandOf false w y) =
      ((carrier w).arithmetic sym x.toNat y.toNat).map (⟨carrier w, ·⟩) := by
  have hcommon : (IntType.fixed w false).common (.fixed w false) = carrier w := by
    cases w <;> first | exact absurd rfl hw | rfl
  have hself (a : BitVec w.bits) := (convert_carrier hw a).2
  rw [operandOf_unsigned hw, operandOf_unsigned hw]
  unfold IntValue.binary
  split
  · exact absurd rfl hop.1
  · exact absurd rfl hop.2
  · simp only [hcommon, hself]

theorem binary_signed (hw : w ≠ .w1) {sym : BinaryOp} (hop : sym ≠ .shl ∧ sym ≠ .shr) :
    (operandOf true w x).binary sym (operandOf true w y) =
      ((signedCarrier w).arithmetic sym x.toInt y.toInt).map (⟨signedCarrier w, ·⟩) := by
  have hcommon : (IntType.fixed w true).common (.fixed w true) = signedCarrier w := by
    cases w <;> first | exact absurd rfl hw | rfl
  have hself : ∀ a : BitVec w.bits, (signedCarrier w).convert a.toInt = a.toInt := fun a =>
    IntType.convert_of_holds (holds_signedCarrier hw a.le_toInt a.toInt_lt)
  rw [operandOf_signed hw, operandOf_signed hw]
  unfold IntValue.binary
  split
  · exact absurd rfl hop.1
  · exact absurd rfl hop.2
  · simp only [hcommon, hself]

theorem combine_of_unsigned (hw : w ≠ .w1) (hs : (integerOp op).2 = false)
    (hop : (integerOp op).1 ≠ .shl ∧ (integerOp op).1 ≠ .shr)
    (h : Settles z ((carrier w).arithmetic (integerOp op).1 x.toNat y.toNat)) :
    combine op w x y = some (encode w z) := by
  obtain ⟨v, hv, hmod⟩ := h
  refine combine_of_bmod (r := ⟨carrier w, v⟩) hw ?_ hmod
  rw [hs, binary_unsigned hw hop, hv]
  rfl

theorem combine_of_signed (hw : w ≠ .w1) (hs : (integerOp op).2 = true)
    (hop : (integerOp op).1 ≠ .shl ∧ (integerOp op).1 ≠ .shr)
    (h : (signedCarrier w).arithmetic (integerOp op).1 x.toInt y.toInt = some z.toInt) :
    combine op w x y = some (encode w z) := by
  refine combine_of_bmod (r := ⟨signedCarrier w, z.toInt⟩) hw ?_ z.toInt_bmod_cancel
  rw [hs, binary_signed hw hop, h]
  rfl

/-- Beyond a single bit every defined result is the one prescribed, unless a 16-bit product does
not fit `int`. -/
theorem combine_eq_encode (hw : w ≠ .w1) (hz : op.result? x y = some z)
    (h16 : op = .mul → w = .w16 → x.toNat * y.toNat < 2 ^ 31) :
    combine op w x y = some (encode w z) := by
  cases op with
  | add =>
    cases hz
    exact combine_of_unsigned hw rfl (by decide) (settles_add hw x y)
  | sub =>
    cases hz
    exact combine_of_unsigned hw rfl (by decide) (settles_sub hw x y)
  | mul =>
    cases hz
    exact combine_of_unsigned hw rfl (by decide) (settles_mul hw x y (h16 rfl))
  | and =>
    cases hz
    exact combine_of_unsigned hw rfl (by decide) ((unsigned_bitwise hw x y).1 ▸ settles_toNat _)
  | or =>
    cases hz
    exact combine_of_unsigned hw rfl (by decide) ((unsigned_bitwise hw x y).2.1 ▸ settles_toNat _)
  | xor =>
    cases hz
    exact combine_of_unsigned hw rfl (by decide) ((unsigned_bitwise hw x y).2.2 ▸ settles_toNat _)
  | udiv =>
    obtain ⟨hy, hz⟩ := Option.ite_none_left_eq_some.mp hz
    cases hz
    exact combine_of_unsigned hw rfl (by decide) (settles_div hw x y hy)
  | urem =>
    obtain ⟨hy, hz⟩ := Option.ite_none_left_eq_some.mp hz
    cases hz
    exact combine_of_unsigned hw rfl (by decide) (settles_rem hw x y hy)
  | sdiv =>
    obtain ⟨hy, hz⟩ := Option.ite_none_left_eq_some.mp hz
    cases hz
    rw [not_or] at hy
    exact combine_of_signed hw rfl (by decide) (signed_div hw x y hy.1 hy.2)
  | srem =>
    obtain ⟨hy, hz⟩ := Option.ite_none_left_eq_some.mp hz
    cases hz
    rw [not_or] at hy
    exact combine_of_signed hw rfl (by decide) (signed_rem hw x y hy.1 hy.2)
  | shl =>
    obtain ⟨hy, hz⟩ := Option.ite_none_right_eq_some.mp hz
    cases hz
    obtain ⟨v, hv, hmod⟩ := settles_shl hw x y hy
    refine combine_of_bmod (r := ⟨carrier w, v⟩) hw ?_ hmod
    simp only [integerOp, operandOf_unsigned hw]
    exact congrArg (Option.map _) hv
  | lshr =>
    obtain ⟨hy, hz⟩ := Option.ite_none_right_eq_some.mp hz
    cases hz
    obtain ⟨v, hv, hmod⟩ := settles_shr x y hy
    refine combine_of_bmod (r := ⟨carrier w, v⟩) hw ?_ hmod
    simp only [integerOp, operandOf_unsigned hw]
    exact congrArg (Option.map _) hv
  | ashr =>
    obtain ⟨hy, hz⟩ := Option.ite_none_right_eq_some.mp hz
    cases hz
    refine combine_of_bmod (r := ⟨signedCarrier w, _⟩) hw ?_ (BitVec.toInt_bmod_cancel _)
    simp only [integerOp, operandOf_signed hw]
    exact congrArg (Option.map _) (signed_shr hw x y hy)
  | fadd | fsub | fmul | fdiv | frem => cases hz

/-- Two 16-bit factors are promoted to `int`, where the product may overflow. -/
theorem combine_mul_of_le {x y : BitVec Width.w16.bits} (h : 2 ^ 31 ≤ x.toNat * y.toNat) :
    combine .mul .w16 x y = none := by
  have hover : ¬ (carrier .w16).Holds ((x.toNat : Int) * y.toNat) := by
    rintro ⟨-, hlt⟩
    have hle : (2 : Int) ^ 31 ≤ (x.toNat : Int) * y.toNat := by exact_mod_cast h
    exact absurd hlt (not_lt.mpr hle)
  have hnone : (carrier .w16).arithmetic .mul x.toNat y.toNat = none :=
    IntType.settle_of_overflow rfl hover
  unfold combine
  simp only [integerOp]
  rw [binary_unsigned (by decide) (by decide), hnone]
  rfl

/-- On single bits only the sum of two ones is wrong. -/
theorem combine_bit (op : Compiled.BinaryOp) {x y z : BitVec Width.w1.bits}
    (hz : op.result? x y = some z) :
    combine op .w1 x y =
      if op = .add ∧ x.toNat = 1 ∧ y.toNat = 1 then some ⟨.bool, 1⟩ else some (encode .w1 z) := by
  have hall : ∀ x y z : BitVec 1, op.result? x y = some z →
      combine op .w1 x y =
        if op = .add ∧ x.toNat = 1 ∧ y.toNat = 1 then some ⟨.bool, 1⟩
        else some (encode .w1 z) := by
    cases op <;> decide
  exact hall x y z hz

/-! ### What is written -/

/-- The name of the type that an operand is cast to. -/
def castName (signed : Bool) (w : Width) : TypeName :=
  if signed ∨ w = .w1 then declarationOf [] (.int w) () else ⟨[], .int w false, .entity ()⟩

def binaryExpr (op : Compiled.BinaryOp) (w : Width) (a b : Expr) : Expr :=
  .cast (castName true w) (.paren (.binary (integerOp op).1
    (.cast (castName (integerOp op).2 w) a) (.cast (castName (integerOp op).2 w) b)))

theorem intType?_castName (signed : Bool) (w : Width) (x : BitVec w.bits) :
    (castName signed w).intType? = some (operandOf signed w x).type := by
  cases signed <;> cases w <;> rfl

theorem intType?_castName_true (w : Width) : (castName true w).intType? = some (intTypeOf w) := by
  cases w <;> rfl

theorem relates?_integerOp (op : Compiled.BinaryOp) (a b : Int) :
    (integerOp op).1.relates? a b = none := by
  cases op <;> rfl

theorem intValue?_binaryExpr {a b : Expr}
    (ha : (Expr.cast (castName (integerOp op).2 w) a).intValue? env =
      some (operandOf (integerOp op).2 w x))
    (hb : (Expr.cast (castName (integerOp op).2 w) b).intValue? env =
      some (operandOf (integerOp op).2 w y)) :
    (binaryExpr op w a b).intValue? env = combine op w x y := by
  unfold binaryExpr combine
  rw [Expr.intValue?, intType?_castName_true, Expr.intValue?, Expr.intValue?, ha, hb]
  simp only [Option.bind_eq_bind, Option.bind_some, Option.pure_def, IntValue.compare?,
    relates?_integerOp, Option.map_none, Option.none_or]
  cases (operandOf (integerOp op).2 w x).binary (integerOp op).1 (operandOf (integerOp op).2 w y)
  · rfl
  · rfl

/-- A number read modulo the size of the type that it is cast to. -/
theorem operandOf_eq (signed : Bool) {a : Int} (hbit : w = .w1 → a = x.toNat)
    (hwide : w ≠ .w1 → BitVec.ofInt w.bits a = x) :
    operandOf signed w x =
      ⟨(operandOf signed w x).type, (operandOf signed w x).type.convert a⟩ := by
  by_cases hw : w = .w1
  · subst hw
    rw [hbit rfl]
    have hx : ∀ x : BitVec 1, x = 0 ∨ x = 1 := by decide
    rcases hx x with rfl | rfl <;> rfl
  · obtain rfl := hwide hw
    cases signed with
    | false =>
      rw [operandOf_unsigned hw]
      change _ = (⟨_, a % 2 ^ w.bits⟩ : IntValue)
      rw [BitVec.toNat_ofInt]
      congr 1
      push_cast
      exact Int.toNat_of_nonneg (Int.emod_nonneg _ (by positivity))
    | true =>
      rw [operandOf_signed hw]
      change _ = (⟨_, a.bmod (2 ^ w.bits)⟩ : IntValue)
      rw [BitVec.toInt_ofInt]

theorem intValue?_int (long : Bool) (h : v.natAbs < 2 ^ 63) :
    ∃ t, (Expr.int v long).intValue? env = some ⟨t, v⟩ ∧ t.isSigned ∧ t.Holds v := by
  unfold Expr.intValue? literalType?
  split_ifs with hshort
  · refine ⟨.int, rfl, rfl, ?_⟩
    change -2 ^ 31 ≤ v ∧ v < 2 ^ 31
    omega
  · refine ⟨.fixed .w64 true, rfl, rfl, ?_⟩
    change -2 ^ 63 ≤ v ∧ v < 2 ^ 63
    omega

theorem intValue?_intLiteral {k : Int} (hlow : -2 ^ (w.bits - 1) ≤ k) (hlong : k < 2 ^ 63)
    (hv : v = if w = .w1 then (if k = 0 then 0 else 1) else k) :
    ∃ t, (intLiteral k w).intValue? env = some ⟨t, v⟩ ∧ t.isSigned ∧ t.Holds v := by
  have hleast : -2 ^ 63 ≤ k := by
    refine le_trans ?_ hlow
    cases w <;> decide
  subst hv
  unfold intLiteral
  split_ifs with hw hk hmin h64 h32
  · exact intValue?_int false (by decide)
  · exact intValue?_int false (by decide)
  · subst hmin
    exact ⟨.fixed .w64 true, rfl, rfl, by decide⟩
  · exact intValue?_int true (by omega)
  · rw [h32.1]
    exact ⟨.int, rfl, rfl, by decide⟩
  · exact intValue?_int false (by omega)

/-- A constant above the signed numbers of its width. -/
def exceedsSigned (w : Width) : Value → Bool
  | .int k => decide (2 ^ (w.bits - 1) ≤ k)
  | _ => false

/-- The number that an operand is written as: a signed one, except for a bit and for a constant
above these. -/
def writtenNumber (w : Width) (v : Value) (x : BitVec w.bits) : Int :=
  if w = .w1 ∨ exceedsSigned w v = true then x.toNat else x.toInt

theorem ofInt_writtenNumber (v : Value) (x : BitVec w.bits) :
    BitVec.ofInt w.bits (writtenNumber w v x) = x := by
  unfold writtenNumber
  split_ifs <;> simp

theorem writtenNumber_bit (v : Value) (x : BitVec Width.w1.bits) :
    writtenNumber .w1 v x = x.toNat := by
  simp [writtenNumber]

/-- A constant is written as it stands. -/
theorem writtenNumber_int (hw : w ≠ .w1) {k : Int} (hlow : -2 ^ (w.bits - 1) ≤ k)
    (hhigh : k < 2 ^ w.bits) : writtenNumber w (.int k) (.ofInt w.bits k) = k := by
  by_cases hk : 2 ^ (w.bits - 1) ≤ k
  · have hnonneg : 0 ≤ k := le_trans (by positivity) hk
    have hnat : ((BitVec.ofInt w.bits k).toNat : Int) = k := by
      rw [BitVec.toNat_ofInt, Int.toNat_of_nonneg (Int.emod_nonneg _ (by positivity))]
      exact_mod_cast Int.emod_eq_of_lt hnonneg hhigh
    rw [writtenNumber, if_pos (.inr (by simpa [exceedsSigned] using hk)), hnat]
  · have hint : (BitVec.ofInt w.bits k).toInt = k := by
      rw [BitVec.toInt_ofInt]
      exact IntType.convert_of_holds (t := .fixed w true) ⟨hlow, not_le.mp hk⟩
    rw [writtenNumber, if_neg (by simpa [exceedsSigned, hw] using hk), hint]

/-- An operand is written as an expression for its number, of a type that can represent it. -/
theorem Denotes.exists_number {v : Value} (h : Denotes env w v x) :
    ∃ e, (∀ (wr : Writer) (n : Needs), Gives (wr.value v (.int w)) n e n) ∧
      ∃ t, e.intValue? env = some ⟨t, writtenNumber w v x⟩ ∧ t.Holds (writtenNumber w v x) ∧
        (w ≠ .w1 → t.isSigned) := by
  cases h with
  | @var name _ hvar =>
    have hnumber : writtenNumber w (.var name) x = (encode w x).value := by
      simp [writtenNumber, encode, exceedsSigned]
    rw [hnumber]
    refine ⟨_, fun _ _ => rfl, intTypeOf w, hvar, holds_encode x, fun hw => ?_⟩
    rw [intTypeOf_of_ne hw]
    rfl
  | @int k hlow hhigh hlong =>
    have hnumber : writtenNumber w (.int k) (.ofInt w.bits k) =
        if w = .w1 then (if k = 0 then 0 else 1) else k := by
      by_cases hw : w = .w1
      · subst hw
        simp only [Width.bits] at hlow hhigh
        interval_cases k <;> rfl
      · rw [if_neg hw, writtenNumber_int hw hlow hhigh]
    obtain ⟨t, ht, hsigned, hholds⟩ := intValue?_intLiteral hlow hlong hnumber
    exact ⟨_, fun _ _ => rfl, t, ht, hholds, fun _ => hsigned⟩
  | @bool b hw =>
    subst hw
    refine ⟨_, fun _ _ => rfl, .int, ?_, ?_, fun _ => rfl⟩ <;> cases b <;> first | rfl | decide
  | zero =>
    have hnumber : writtenNumber w .zero 0 = 0 := by simp [writtenNumber]
    rw [hnumber]
    exact ⟨_, fun _ _ => rfl, .int, rfl, by decide, fun _ => rfl⟩

theorem intValue?_cast {name : TypeName} {t type : IntType} {e : Expr} {k : Int}
    (hname : name.intType? = some type) (he : e.intValue? env = some ⟨t, k⟩) :
    (Expr.cast name e).intValue? env = some ⟨type, type.convert k⟩ := by
  rw [Expr.intValue?, hname, he]
  rfl

/-- An operand cast to the type of its width. -/
theorem intValue?_cast_written {v : Value} {t : IntType} {e : Expr}
    (he : e.intValue? env = some ⟨t, writtenNumber w v x⟩) (signed : Bool) :
    (Expr.cast (castName signed w) e).intValue? env = some (operandOf signed w x) := by
  have hbit : w = .w1 → writtenNumber w v x = x.toNat := by
    rintro rfl
    exact writtenNumber_bit v x
  rw [intValue?_cast (intType?_castName signed w x) he,
    ← operandOf_eq signed hbit fun _ => ofInt_writtenNumber v x]

theorem Denotes.exists_written {v : Value} (h : Denotes env w v x) :
    ∃ e, (∀ (wr : Writer) (n : Needs), Gives (wr.value v (.int w)) n e n) ∧
      ∀ signed, (Expr.cast (castName signed w) e).intValue? env = some (operandOf signed w x) := by
  obtain ⟨e, hgives, t, ht, -, -⟩ := h.exists_number
  exact ⟨e, hgives, intValue?_cast_written ht⟩

theorem gives_unsignedName (w : Width) (n : Needs) :
    Gives (Emit.unsignedName (.int w)) n (castName false w) n := by
  cases w <;> rfl

theorem gives_castName_true (w : Width) (n : Needs) :
    Gives (Emit.typeName (.int w)) n (castName true w) n := by
  cases w <;> rfl

theorem gives_binary {wr : Writer} {s : Scope} {dest : String} {lhs rhs : Value} {a b : Expr}
    (hop : op.isFloat = false) (ha : ∀ n, Gives (wr.value lhs (.int w)) n a n)
    (hb : ∀ n, Gives (wr.value rhs (.int w)) n b n) (n : Needs) :
    Gives (wr.statement s (.binary dest op (.int w) lhs rhs)) n
      (some (.assign (.ident (localName dest)) (binaryExpr op w a b))) n := by
  have hrem : (op == .frem) = false := by
    cases op <;> first | rfl | cases hop
  simp only [Writer.statement, Writer.binary, gives_bind, gives_pure, hrem, hop,
    Bool.false_eq_true, if_false]
  refine ⟨_, n, ⟨a, n, ha n, b, n, hb n, castName true w, n, gives_castName_true w n, ?_⟩, rfl, rfl⟩
  unfold binaryExpr
  split_ifs with hsigned
  · simp only [gives_bind, gives_pure, hsigned]
    exact ⟨castName true w, n, ⟨rfl, rfl⟩, rfl, rfl⟩
  · rw [Bool.not_eq_true] at hsigned
    simp only [gives_bind, gives_pure, hsigned]
    exact ⟨castName false w, n, gives_unsignedName w n, rfl, rfl⟩

end

/-- A product of two 16-bit numbers that does not fit `int`. -/
def ProductTooLarge (op : Compiled.BinaryOp) (w : Width) (x y : BitVec w.bits) : Prop :=
  op = .mul ∧ w = .w16 ∧ 2 ^ 31 ≤ x.toNat * y.toNat

/-- The sum of two one bits. -/
def BitsCarry (op : Compiled.BinaryOp) (w : Width) (x y : BitVec w.bits) : Prop :=
  op = .add ∧ w = .w1 ∧ x.toNat = 1 ∧ y.toNat = 1

/-- An integer operation with a defined result is written as the assignment of an expression that
has this result, without overflow on the way, except for two cases: a 16-bit product that does not
fit `int`, where the expression is undefined, and the sum of two one bits, where it gives one. -/
theorem binary_value_iff (wr : Writer) (s : Scope) (dest : String) {op : Compiled.BinaryOp}
    {w : Width} {lhs rhs : Value} {env : String → Option IntValue} {x y z : BitVec w.bits}
    (hx : Denotes env w lhs x) (hy : Denotes env w rhs y) (hz : op.result? x y = some z) :
    ∃ e, (∀ n, Gives (wr.statement s (.binary dest op (.int w) lhs rhs)) n
        (some (.assign (.ident (localName dest)) e)) n) ∧
      (e.intValue? env = some (encode w z) ↔
        ¬ProductTooLarge op w x y ∧ ¬BitsCarry op w x y) ∧
      (ProductTooLarge op w x y → e.intValue? env = none) ∧
      (BitsCarry op w x y → e.intValue? env = some ⟨.bool, 1⟩) := by
  have hop : op.isFloat = false := by
    cases op <;> first | rfl | cases hz
  obtain ⟨a, hga, hva⟩ := hx.exists_written
  obtain ⟨b, hgb, hvb⟩ := hy.exists_written
  refine ⟨binaryExpr op w a b, gives_binary hop (hga wr) (hgb wr), ?_⟩
  rw [intValue?_binaryExpr (hva _) (hvb _)]
  by_cases hw : w = .w1
  · subst hw
    have hnarrow : ¬ProductTooLarge op .w1 x y := fun h => absurd h.2.1 (by decide)
    rw [combine_bit op hz]
    by_cases hadd : op = .add ∧ x.toNat = 1 ∧ y.toNat = 1
    · have hcarry : BitsCarry op .w1 x y := ⟨hadd.1, rfl, hadd.2⟩
      have hsum : encode .w1 z ≠ ⟨.bool, 1⟩ := by
        obtain ⟨rfl, hx1, hy1⟩ := hadd
        obtain rfl : x + y = z := Option.some.inj hz
        have hzero : (x + y).toNat = 0 := by rw [BitVec.toNat_add, hx1, hy1]; rfl
        simp [encode, hzero]
      rw [if_pos hadd]
      exact ⟨⟨fun h => absurd (Option.some.inj h).symm hsum, fun h => absurd hcarry h.2⟩,
        fun h => absurd h hnarrow, fun _ => rfl⟩
    · have hcarry : ¬BitsCarry op .w1 x y := fun h => hadd ⟨h.1, h.2.2⟩
      rw [if_neg hadd]
      exact ⟨⟨fun _ => ⟨hnarrow, hcarry⟩, fun _ => rfl⟩, fun h => absurd h hnarrow,
        fun h => absurd h hcarry⟩
  · have hcarry : ¬BitsCarry op w x y := fun h => hw h.2.1
    by_cases hmul : ProductTooLarge op w x y
    · have hnone : combine op w x y = none := by
        obtain ⟨rfl, rfl, hle⟩ := hmul
        exact combine_mul_of_le hle
      rw [hnone]
      exact ⟨⟨fun h => (Option.some_ne_none _ h.symm).elim, fun h => absurd hmul h.1⟩,
        fun _ => rfl, fun h => absurd h hcarry⟩
    · have h16 : op = .mul → w = .w16 → x.toNat * y.toNat < 2 ^ 31 := by
        intro hop hw16
        by_contra hlt
        exact hmul ⟨hop, hw16, not_lt.mp hlt⟩
      rw [combine_eq_encode hw hz h16]
      exact ⟨⟨fun _ => ⟨hmul, hcarry⟩, fun _ => rfl⟩, fun h => absurd h hmul,
        fun h => absurd h hcarry⟩

theorem binary_value_iff_product :
    ∃ e, (∀ n, Gives (hostWriter.statement ⟨⟨"m", none, none, [], [], []⟩, [], []⟩
        (.binary "c" .mul (.int .w16) (.var "a") (.int (-7)))) n
        (some (.assign (.ident (localName "c")) e)) n) ∧
      e.intValue? (fun _ => some (encode .w16 300)) = some (encode .w16 (-2100)) := by
  have hx : Denotes (fun _ => some (encode .w16 300)) .w16 (.var "a") 300 := .var rfl
  have hy : Denotes (fun _ => some (encode .w16 300)) .w16 (.int (-7)) (.ofInt _ (-7)) :=
    .int (by decide) (by decide) (by decide)
  have hz : Compiled.BinaryOp.mul.result? (300 : BitVec Width.w16.bits) (.ofInt _ (-7)) =
      some (-2100) := by decide
  obtain ⟨e, hwritten, hvalue, -⟩ :=
    binary_value_iff hostWriter ⟨⟨"m", none, none, [], [], []⟩, [], []⟩ "c" hx hy hz
  refine ⟨e, hwritten, hvalue.mpr ⟨?_, ?_⟩⟩
  · rintro ⟨-, -, hle⟩
    exact absurd hle (by decide)
  · rintro ⟨hop, -⟩
    cases hop

/-- The two exceptions occur: 65535 times 65535 is undefined instead of 1, and one plus one is one
instead of zero. -/
theorem narrow_operands_promoted_wrongly :
    (∃ e, (∀ n, Gives (hostWriter.statement ⟨⟨"m", none, none, [], [], []⟩, [], []⟩
        (.binary "c" .mul (.int .w16) (.var "a") (.var "b"))) n
        (some (.assign (.ident (localName "c")) e)) n) ∧
      Compiled.BinaryOp.mul.result? (65535 : BitVec 16) 65535 = some 1 ∧
      e.intValue? (fun _ => some (encode .w16 65535)) = none) ∧
    ∃ e, (∀ n, Gives (hostWriter.statement ⟨⟨"m", none, none, [], [], []⟩, [], []⟩
        (.binary "c" .add (.int .w1) (.var "a") (.var "b"))) n
        (some (.assign (.ident (localName "c")) e)) n) ∧
      Compiled.BinaryOp.add.result? (1 : BitVec 1) 1 = some 0 ∧
      e.intValue? (fun _ => some (encode .w1 1)) = some (encode .w1 1) :=
  ⟨⟨_, fun _ => rfl, rfl, rfl⟩, ⟨_, fun _ => rfl, rfl, rfl⟩⟩

end Offload.C
