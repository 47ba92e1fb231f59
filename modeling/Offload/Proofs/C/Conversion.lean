import Offload.Proofs.C.Arithmetic
import Offload.Proofs.C.Declared

/-!
# Conversions and comparisons as written

A variable holds the signed number of its width, or the bit, so a conversion of an integer has to
bring back the sign or the lack of one before it widens. Between integer types it always does, and
so does a comparison. On the way to a pointer or a floating-point number two cases are missed: an
address is made from the signed number, and a single bit is never taken as negative.
-/

namespace Offload.Compiled

/-- The result of a conversion between integers, where it is one. -/
def CastOp.result? (op : CastOp) {m : Nat} (n : Nat) (x : BitVec m) : Option (BitVec n) :=
  match op with
  | .trunc => if n < m then some (x.setWidth n) else none
  | .zext => if m < n then some (x.setWidth n) else none
  | .sext => if m < n then some (x.signExtend n) else none
  | _ => none

/-- The number that a conversion out of the integers starts from. -/
def CastOp.reads? (op : CastOp) {n : Nat} (x : BitVec n) : Option Int :=
  match op with
  | .uitofp | .inttoptr => some x.toNat
  | .sitofp => some x.toInt
  | _ => none

def IntPredicate.holds (p : IntPredicate) {n : Nat} (x y : BitVec n) : Bool :=
  match p with
  | .eq => x == y
  | .ne => x != y
  | .ugt => y.ult x
  | .uge => y.ule x
  | .ult => x.ult y
  | .ule => x.ule y
  | .sgt => y.slt x
  | .sge => y.sle x
  | .slt => x.slt y
  | .sle => x.sle y

end Offload.Compiled

namespace Offload.C

open Offload.Compiled (Width Value Ty CastOp IntPredicate)

/-! ### Comparisons -/

section

variable {n : Nat} {p : IntPredicate}

theorem relates?_comparison_unsigned (hp : p.isUnsigned = true) (x y : BitVec n) :
    (comparison p).relates? x.toNat y.toNat = some (p.holds x y) := by
  cases p with
  | ugt | ult => simp [comparison, BinaryOp.relates?, IntPredicate.holds, BitVec.ult_eq_decide]
  | uge | ule => simp [comparison, BinaryOp.relates?, IntPredicate.holds, BitVec.ule_eq_decide]
  | eq | ne | sgt | sge | slt | sle => cases hp

theorem relates?_comparison_signed (hp : p.isUnsigned = false) (x y : BitVec n) :
    (comparison p).relates? x.toInt y.toInt = some (p.holds x y) := by
  cases p with
  | eq | ne =>
    simp [comparison, BinaryOp.relates?, IntPredicate.holds, BitVec.toInt_inj, beq_eq_decide, bne]
  | sgt | slt => simp [comparison, BinaryOp.relates?, IntPredicate.holds, BitVec.slt_eq_decide]
  | sge | sle => simp [comparison, BinaryOp.relates?, IntPredicate.holds, BitVec.sle_eq_decide]
  | ugt | uge | ult | ule => cases hp

/-- Operands of types that are signed alike are compared as numbers. -/
theorem IntValue.compare?_of_holds {s t : IntType} {i j : Int} (hst : s.isSigned = t.isSigned)
    (hi : s.Holds i) (hj : t.Holds j) (op : BinaryOp) :
    IntValue.compare? op ⟨s, i⟩ ⟨t, j⟩ =
      (op.relates? i j).map fun r => ⟨.int, if r then 1 else 0⟩ := by
  have hi' := IntType.convert_of_holds (IntType.holds_common hst hi)
  have hj' := IntType.convert_of_holds (IntType.holds_common hst.symm hj)
  rw [IntType.common_comm] at hj'
  simp only [IntValue.compare?, hi', hj']

end

section

variable {w : Width} {x y : BitVec w.bits} {p : IntPredicate} {env : String → Option IntValue}
  {lhs rhs : Value} {a b : Expr}

/-- An unsigned comparison casts its operands first. -/
def compareExpr (p : IntPredicate) (w : Width) (a b : Expr) : Expr :=
  if p.isUnsigned then
    .binary (comparison p) (.cast (castName false w) a) (.cast (castName false w) b)
  else .binary (comparison p) a b

theorem gives_compareInts {wr : Writer} {s : Scope} {dest : String}
    (ha : ∀ n, Gives (wr.value lhs (.int w)) n a n) (hb : ∀ n, Gives (wr.value rhs (.int w)) n b n)
    (n : Needs) : Gives (wr.statement s (.icmp dest p (.int w) lhs rhs)) n
      (some (.assign (.ident (localName dest)) (compareExpr p w a b))) n := by
  simp only [Writer.statement, Writer.compareInts, gives_bind, gives_pure]
  refine ⟨_, n, ⟨a, n, ha n, b, n, hb n, ?_⟩, rfl, rfl⟩
  unfold compareExpr
  cases hp : p.isUnsigned with
  | true =>
    simp only [Ty.isInt, Bool.and_true, if_true, gives_bind, gives_pure]
    exact ⟨_, n, gives_unsignedName w n, rfl, rfl⟩
  | false =>
    simp only [Bool.false_and, Bool.false_eq_true, if_false, gives_pure, and_self]

/-- A truth value as a number. -/
theorem value_encode_ofBool (r : Bool) :
    (encode .w1 (BitVec.ofBool r)).value = if r then 1 else 0 := by
  cases r <;> rfl

theorem intValue?_binary_compare {op : BinaryOp} {u v : IntValue} {r : IntValue}
    (ha : a.intValue? env = some u) (hb : b.intValue? env = some v)
    (h : u.compare? op v = some r) : (Expr.binary op a b).intValue? env = some r := by
  rw [Expr.intValue?, ha, hb]
  simp [h]

theorem Denotes.exists_compared (hw : w ≠ .w1) (hx : Denotes env w lhs x) (hy : Denotes env w rhs y)
    (hlhs : exceedsSigned w lhs = false) (hrhs : exceedsSigned w rhs = false) (p : IntPredicate) :
    ∃ a b, (∀ (wr : Writer) (n : Needs), Gives (wr.value lhs (.int w)) n a n) ∧
      (∀ (wr : Writer) (n : Needs), Gives (wr.value rhs (.int w)) n b n) ∧
      (compareExpr p w a b).intValue? env =
        some ⟨.int, (encode .w1 (BitVec.ofBool (p.holds x y))).value⟩ := by
  rw [value_encode_ofBool]
  unfold compareExpr
  cases hp : p.isUnsigned with
  | true =>
    obtain ⟨a, hga, hva⟩ := hx.exists_written
    obtain ⟨b, hgb, hvb⟩ := hy.exists_written
    refine ⟨a, b, hga, hgb, ?_⟩
    rw [if_pos rfl]
    refine intValue?_binary_compare (hva false) (hvb false) ?_
    have hholds : ∀ z : BitVec w.bits, (IntType.fixed w false).Holds z.toNat := fun z =>
      ⟨Int.natCast_nonneg _, by exact_mod_cast z.isLt⟩
    rw [operandOf_unsigned hw, operandOf_unsigned hw,
      IntValue.compare?_of_holds rfl (hholds x) (hholds y), relates?_comparison_unsigned hp]
    rfl
  | false =>
    obtain ⟨a, hga, s, hva, hsa, hss⟩ := hx.exists_number
    obtain ⟨b, hgb, t, hvb, htb, hts⟩ := hy.exists_number
    refine ⟨a, b, hga, hgb, ?_⟩
    rw [if_neg (by decide)]
    refine intValue?_binary_compare hva hvb ?_
    rw [IntValue.compare?_of_holds ((hss hw).trans (hts hw).symm) hsa htb]
    simp only [writtenNumber, hw, hlhs, hrhs, Bool.false_eq_true, or_self, if_false]
    rw [relates?_comparison_signed hp]
    rfl

end

/-! ### Conversions between integers -/

section

variable {m n : Nat}

/-- A number that stands for a bit vector agrees with it modulo the size of a narrower one. -/
theorem toNat_emod_of_ofInt {k : Int} {x : BitVec m} (hk : BitVec.ofInt m k = x) (h : n ≤ m) :
    (x.toNat : Int) % (2 ^ n : Nat) = k % (2 ^ n : Nat) := by
  rw [← hk, BitVec.toNat_ofInt, Int.toNat_of_nonneg (Int.emod_nonneg _ (by positivity))]
  exact Int.emod_emod_of_dvd k (by exact_mod_cast Nat.pow_dvd_pow 2 h)

theorem toNat_bmod_of_ofInt {k : Int} {x : BitVec m} (hk : BitVec.ofInt m k = x) (h : n ≤ m) :
    (x.toNat : Int).bmod (2 ^ n) = k.bmod (2 ^ n) := by
  rw [← Int.emod_bmod, toNat_emod_of_ofInt hk h, Int.emod_bmod]

/-- The lowest bit of a number of a signed type. -/
theorem arithmetic_and_one {t : IntType} (ht : t.isSigned = true) (hbits : 1 < t.bits) (k : Int) :
    t.arithmetic .and k 1 = some (k % 2) := by
  have hfour : 2 ^ 2 ≤ 2 ^ t.bits := Nat.pow_le_pow_right (by decide) hbits
  have hlow : (BitVec.ofInt t.bits k &&& BitVec.ofInt t.bits 1).toNat = (k % 2).toNat := by
    have hone : (BitVec.ofInt t.bits 1).toNat = 1 := by
      rw [BitVec.toNat_ofInt, Int.emod_eq_of_lt (by decide) (by omega)]
      rfl
    have hmod := toNat_emod_of_ofInt (rfl : BitVec.ofInt t.bits k = _) hbits.le
    rw [BitVec.toNat_and, hone, Nat.and_one_is_mod]
    omega
  have hint := BitVec.toInt_eq_toNat_of_lt
    (x := BitVec.ofInt t.bits k &&& BitVec.ofInt t.bits 1) (by omega)
  rw [IntType.arithmetic, IntType.ofBits, if_pos ht, hint, hlow]
  congr 1
  omega

end

section

variable {source target : Width} {x : BitVec source.bits} {z : BitVec target.bits}
  {env : String → Option IntValue} {v : Value} {e : Expr} {t : IntType} {op : CastOp}

/-- What an operand written as `e` is converted to. -/
def conversionExpr (op : CastOp) (source target : Width) (e : Expr) : Expr :=
  let result := castName true target
  match op with
  | .trunc =>
    if target = .w1 then .cast boolName (.paren (.binary .and e (.int 1 false)))
    else .cast result (.cast (castName false target) e)
  | .zext =>
    if source = .w1 then .cast result e else .cast result (.cast (castName false source) e)
  | _ =>
    if source = .w1 then .cast result (.paren (.conditional e (.int (-1) false) zeroInt))
    else .cast result (.cast (castName true source) e)

theorem gives_conversion {wr : Writer} {s : Scope} {dest : String}
    (hz : op.result? target.bits x = some z) (he : ∀ n, Gives (wr.value v (.int source)) n e n)
    (n : Needs) : Gives (wr.statement s (.cast dest op (.int source) v (.int target))) n
      (some (.assign (.ident (localName dest)) (conversionExpr op source target e))) n := by
  have hresult := gives_castName_true target n
  simp only [Writer.statement, Writer.castExpr, gives_bind, gives_pure]
  refine ⟨e, n, he n, _, n, ⟨castName true target, n, hresult, ?_⟩, rfl, rfl⟩
  have hbit : ∀ w : Width, (Ty.int w == .int .w1) = decide (w = .w1) := by
    intro w
    cases w <;> rfl
  cases op with
  | trunc =>
    simp only [conversionExpr, hbit, decide_eq_true_eq]
    split_ifs
    · exact gives_pure.mpr ⟨rfl, rfl⟩
    · exact gives_bind.mpr ⟨_, n, gives_unsignedName target n, gives_pure.mpr ⟨rfl, rfl⟩⟩
  | zext =>
    simp only [conversionExpr, hbit, decide_eq_true_eq]
    split_ifs
    · exact gives_pure.mpr ⟨rfl, rfl⟩
    · exact gives_bind.mpr ⟨_, n, gives_unsignedName source n, gives_pure.mpr ⟨rfl, rfl⟩⟩
  | sext =>
    simp only [conversionExpr, hbit, decide_eq_true_eq]
    split_ifs
    · exact gives_pure.mpr ⟨rfl, rfl⟩
    · exact gives_bind.mpr ⟨_, n, gives_castName_true source n, gives_pure.mpr ⟨rfl, rfl⟩⟩
  | _ => cases hz

/-- A wide result is cast to the type of its variable at the end. -/
theorem intValue?_cast_result {k : Int} (htarget : target ≠ .w1)
    (he : e.intValue? env = some ⟨t, k⟩) (hk : k.bmod (2 ^ target.bits) = z.toInt) :
    (Expr.cast (castName true target) e).intValue? env = some (encode target z) := by
  rw [intValue?_cast (intType?_castName_true target) he, intTypeOf_of_ne htarget, encode,
    if_neg htarget, intTypeOf_of_ne htarget, ← hk]
  rfl

theorem ne_bit_of_lt (h : source.bits < target.bits) : target ≠ .w1 := by
  rintro rfl
  cases source <;> simp [Width.bits] at h

/-- A bit is what is left of a number modulo two. -/
theorem intValue?_lowest_bit (he : e.intValue? env = some ⟨t, writtenNumber source v x⟩)
    (ht : t.Holds (writtenNumber source v x)) (hsigned : t.isSigned = true) :
    (Expr.cast boolName (.paren (.binary .and e (.int 1 false)))).intValue? env =
      some (encode .w1 (x.setWidth 1)) := by
  have hcommon : (t.common .int).isSigned = true ∧ 1 < (t.common .int).bits := by
    revert hsigned
    rcases t with _ | ⟨_ | _ | _ | _ | _, _ | _⟩ <;> decide
  have hone : (t.common .int).convert 1 = 1 := by
    rw [IntType.common_comm]
    exact IntType.convert_of_holds (IntType.holds_common hsigned.symm (by decide))
  have hand : (Expr.paren (.binary .and e (.int 1 false))).intValue? env =
      some ⟨t.common .int, writtenNumber source v x % 2⟩ := by
    rw [Expr.intValue?, Expr.intValue?, he]
    change ((t.common .int).arithmetic .and ((t.common .int).convert _)
      ((t.common .int).convert 1)).map _ = _
    rw [hone, IntType.convert_of_holds (IntType.holds_common hsigned ht),
      arithmetic_and_one hcommon.1 hcommon.2]
    rfl
  have hle : 1 ≤ source.bits := by cases source <;> decide
  have hbit := toNat_emod_of_ofInt (ofInt_writtenNumber v x) hle
  have hholds : IntType.bool.Holds (writtenNumber source v x % 2) :=
    ⟨Int.emod_nonneg _ (by decide), Int.emod_lt_of_pos _ (by decide)⟩
  rw [intValue?_cast rfl hand, IntType.convert_of_holds hholds]
  change some _ = some (IntValue.mk .bool (x.setWidth 1).toNat)
  rw [BitVec.toNat_setWidth]
  push_cast at hbit ⊢
  rw [hbit]

theorem intValue?_trunc (hlt : target.bits < source.bits)
    (he : e.intValue? env = some ⟨t, writtenNumber source v x⟩)
    (ht : t.Holds (writtenNumber source v x)) (hsigned : source ≠ .w1 → t.isSigned) :
    (conversionExpr .trunc source target e).intValue? env =
      some (encode target (x.setWidth target.bits)) := by
  have hsource := ne_bit_of_lt hlt
  simp only [conversionExpr]
  split_ifs with htarget
  · subst htarget
    exact intValue?_lowest_bit he ht (hsigned hsource)
  · have hname : (castName false target).intType? = some (.fixed target false) := by
      rw [intType?_castName false target 0, operandOf_unsigned htarget]
    refine intValue?_cast_result htarget (intValue?_cast hname he) ?_
    rw [BitVec.toInt_setWidth, toNat_bmod_of_ofInt (ofInt_writtenNumber v x) hlt.le]
    exact Int.emod_bmod ..

theorem intValue?_zext (hlt : source.bits < target.bits)
    (he : e.intValue? env = some ⟨t, writtenNumber source v x⟩) :
    (conversionExpr .zext source target e).intValue? env =
      some (encode target (x.setWidth target.bits)) := by
  have htarget := ne_bit_of_lt hlt
  have hnat : (x.toNat : Int).bmod (2 ^ target.bits) = (x.setWidth target.bits).toInt :=
    (BitVec.toInt_setWidth x).symm
  simp only [conversionExpr]
  split_ifs with hsource
  · subst hsource
    rw [writtenNumber_bit] at he
    exact intValue?_cast_result htarget he hnat
  · have hcast := intValue?_cast_written he false
    rw [operandOf_unsigned hsource] at hcast
    exact intValue?_cast_result htarget hcast hnat

theorem intValue?_sext (hlt : source.bits < target.bits)
    (he : e.intValue? env = some ⟨t, writtenNumber source v x⟩) :
    (conversionExpr .sext source target e).intValue? env =
      some (encode target (x.signExtend target.bits)) := by
  have htarget := ne_bit_of_lt hlt
  have hint : x.toInt.bmod (2 ^ target.bits) = (x.signExtend target.bits).toInt := by
    rw [← BitVec.toInt_signExtend_of_le hlt.le, BitVec.toInt_bmod_cancel]
  simp only [conversionExpr]
  split_ifs with hsource
  · subst hsource
    rw [writtenNumber_bit] at he
    have hselect : (Expr.paren (.conditional e (.int (-1) false) zeroInt)).intValue? env =
        some ⟨.int, x.toInt⟩ := by
      have hx : ∀ x : BitVec 1, x = 0 ∨ x = 1 := by decide
      rw [Expr.intValue?, Expr.intValue?, he]
      rcases hx x with rfl | rfl <;> rfl
    exact intValue?_cast_result htarget hselect hint
  · have hcast := intValue?_cast_written he true
    rw [operandOf_signed hsource] at hcast
    exact intValue?_cast_result htarget hcast hint

theorem intValue?_conversionExpr (hz : op.result? target.bits x = some z)
    (he : e.intValue? env = some ⟨t, writtenNumber source v x⟩)
    (ht : t.Holds (writtenNumber source v x)) (hsigned : source ≠ .w1 → t.isSigned) :
    (conversionExpr op source target e).intValue? env = some (encode target z) := by
  cases op with
  | trunc =>
    simp only [CastOp.result?] at hz
    split_ifs at hz with hlt
    cases hz
    exact intValue?_trunc hlt he ht hsigned
  | zext =>
    simp only [CastOp.result?] at hz
    split_ifs at hz with hlt
    cases hz
    exact intValue?_zext hlt he
  | sext =>
    simp only [CastOp.result?] at hz
    split_ifs at hz with hlt
    cases hz
    exact intValue?_sext hlt he
  | _ => cases hz

end

/-- A conversion between integers with a defined result is written as the assignment of an
expression that has this result, without overflow on the way. A comparison of integers wider than a
bit, with constants in the signed range, is written as one that is an `int` of zero or one and says
what the predicate does. -/
theorem conversions_and_comparisons_exact (wr : Writer) (s : Scope) (dest : String)
    {env : String → Option IntValue} :
    (∀ (op : CastOp) (source target : Width) (v : Value) (x : BitVec source.bits)
      (z : BitVec target.bits), Denotes env source v x → op.result? target.bits x = some z →
      ∃ e, (∀ n, Gives (wr.statement s (.cast dest op (.int source) v (.int target))) n
          (some (.assign (.ident (localName dest)) e)) n) ∧
        e.intValue? env = some (encode target z)) ∧
    ∀ (p : IntPredicate) (w : Width) (lhs rhs : Value) (x y : BitVec w.bits), w ≠ .w1 →
      Denotes env w lhs x → Denotes env w rhs y →
      exceedsSigned w lhs = false → exceedsSigned w rhs = false →
      ∃ e, (∀ n, Gives (wr.statement s (.icmp dest p (.int w) lhs rhs)) n
          (some (.assign (.ident (localName dest)) e)) n) ∧
        e.intValue? env = some ⟨.int, (encode .w1 (BitVec.ofBool (p.holds x y))).value⟩ := by
  constructor
  · intro op source target v x z hx hz
    obtain ⟨e, hgives, t, he, ht, hsigned⟩ := hx.exists_number
    exact ⟨_, gives_conversion hz (hgives wr), intValue?_conversionExpr hz he ht hsigned⟩
  · intro p w lhs rhs x y hw hx hy hlhs hrhs
    obtain ⟨a, b, ha, hb, hvalue⟩ := hx.exists_compared hw hy hlhs hrhs p
    exact ⟨_, gives_compareInts (ha wr) (hb wr), hvalue⟩

/-- The least 32-bit number is widened, and another compared with the least of 64 bits. -/
theorem conversions_and_comparisons_exact_least :
    (∃ e, (∀ n, Gives (hostWriter.statement ⟨⟨"m", none, none, [], [], []⟩, [], []⟩
        (.cast "c" .sext (.int .w32) (.int (-2147483648)) (.int .w64))) n
        (some (.assign (.ident (localName "c")) e)) n) ∧
      e.intValue? (fun _ => some (encode .w64 (-7))) = some ⟨.fixed .w64 true, -2147483648⟩) ∧
    ∃ e, (∀ n, Gives (hostWriter.statement ⟨⟨"m", none, none, [], [], []⟩, [], []⟩
        (.icmp "c" .sgt (.int .w64) (.var "a") (.int (-9223372036854775808)))) n
        (some (.assign (.ident (localName "c")) e)) n) ∧
      e.intValue? (fun _ => some (encode .w64 (-7))) = some ⟨.int, 1⟩ := by
  obtain ⟨hconvert, hcompare⟩ := @conversions_and_comparisons_exact hostWriter
    ⟨⟨"m", none, none, [], [], []⟩, [], []⟩ "c" fun _ => some (encode .w64 (-7))
  constructor
  · exact hconvert .sext .w32 .w64 (.int (-2147483648)) (.ofInt _ (-2147483648))
      (.ofInt _ (-2147483648)) (.int (by decide) (by decide) (by decide)) (by decide)
  · exact hcompare .sgt .w64 (.var "a") (.int (-9223372036854775808)) (-7)
      (.ofInt _ (-9223372036854775808)) (by decide) (.var rfl)
      (.int (by decide) (by decide) (by decide)) (by decide) (by decide)

/-! ### Conversions out of the integers -/

section

variable {w : Width} {x : BitVec w.bits} {env : String → Option IntValue} {v : Value} {e : Expr}
  {op : CastOp} {r : Int}

/-- What is converted to an address or a floating-point number. -/
def readExpr (op : CastOp) (w : Width) (e : Expr) : Expr :=
  match op with
  | .uitofp => .cast (castName false w) e
  | .sitofp => .cast (castName true w) e
  | _ => .cast pointerIntName e

theorem exists_gives_readExpr {wr : Writer} (s : Scope) (dest : String) (target : Ty)
    (hr : op.reads? x = some r) (he : ∀ n, Gives (wr.value v (.int w)) n e n) (n : Needs) :
    ∃ n', Gives (wr.statement s (.cast dest op (.int w) v target)) n
      (some (.assign (.ident (localName dest))
        (.cast (declarationOf [] target ()) (readExpr op w e)))) n' := by
  obtain ⟨n', hresult⟩ := exists_gives_declare [] target () n
  refine ⟨n', ?_⟩
  simp only [Writer.statement, Writer.castExpr, gives_bind, gives_pure]
  refine ⟨e, n, he n, _, n', ⟨_, n', hresult, ?_⟩, rfl, rfl⟩
  cases op with
  | uitofp => exact gives_bind.mpr ⟨_, n', gives_unsignedName w n', gives_pure.mpr ⟨rfl, rfl⟩⟩
  | sitofp => exact gives_bind.mpr ⟨_, n', gives_castName_true w n', gives_pure.mpr ⟨rfl, rfl⟩⟩
  | inttoptr => exact gives_pure.mpr ⟨rfl, rfl⟩
  | _ => cases hr

/-- A bit that stands for minus one is read as one. -/
def BitSignLost (op : CastOp) (w : Width) (x : BitVec w.bits) : Prop :=
  op = .sitofp ∧ w = .w1 ∧ x.toNat = 1

/-- A negative number narrower than an address is made an address with its sign. -/
def SignInAddress (op : CastOp) (w : Width) (v : Value) (x : BitVec w.bits) : Prop :=
  op = .inttoptr ∧ w ≠ .w1 ∧ w ≠ .w64 ∧ exceedsSigned w v = false ∧ x.toInt < 0

theorem writtenNumber_lt_zero_iff :
    writtenNumber w v x < 0 ↔ w ≠ .w1 ∧ exceedsSigned w v = false ∧ x.toInt < 0 := by
  unfold writtenNumber
  split_ifs with h
  · constructor
    · intro hneg
      exact absurd hneg (not_lt.mpr (Int.natCast_nonneg _))
    · rintro ⟨hw, hv, -⟩
      simp [hw, hv] at h
  · rw [not_or, Bool.not_eq_true] at h
    simp [h.1, h.2]

/-- As an address, a negative number is too large by what the address is wider. -/
theorem writtenNumber_emod :
    writtenNumber w v x % 2 ^ 64 =
      x.toNat + if writtenNumber w v x < 0 then 2 ^ 64 - 2 ^ w.bits else (0 : Int) := by
  have hlt : (x.toNat : Int) < 2 ^ w.bits := by exact_mod_cast x.isLt
  have hbits : (2 : Int) ^ w.bits ≤ 2 ^ 64 := by cases w <;> decide
  have hcond := x.toInt_eq_toNat_cond
  push_cast at hcond
  have hnumber : writtenNumber w v x =
      x.toNat - if writtenNumber w v x < 0 then 2 ^ w.bits else (0 : Int) := by
    unfold writtenNumber
    split_ifs at hcond ⊢ <;> omega
  split_ifs at hnumber ⊢ <;> omega

theorem intValue?_readExpr {t : IntType} (hr : op.reads? x = some r)
    (he : e.intValue? env = some ⟨t, writtenNumber w v x⟩) :
    ∃ t' k, (readExpr op w e).intValue? env = some ⟨t', k⟩ ∧
      (BitSignLost op w x → k = 1) ∧ (SignInAddress op w v x → k = r + (2 ^ 64 - 2 ^ w.bits)) ∧
      (¬BitSignLost op w x → ¬SignInAddress op w v x → k = r) := by
  cases op with
  | uitofp =>
    cases hr
    refine ⟨_, (operandOf false w x).value, intValue?_cast_written he false, ?_, ?_, ?_⟩
    · rintro ⟨hop, -⟩
      cases hop
    · rintro ⟨hop, -⟩
      cases hop
    · intro _ _
      by_cases hw : w = .w1
      · rw [operandOf, if_pos hw]
      · rw [operandOf_unsigned hw]
  | sitofp =>
    cases hr
    refine ⟨_, (operandOf true w x).value, intValue?_cast_written he true, ?_, ?_, ?_⟩
    · rintro ⟨-, rfl, hone⟩
      simp [operandOf, hone]
    · rintro ⟨hop, -⟩
      cases hop
    · intro hbit _
      by_cases hw : w = .w1
      · subst hw
        have hx : ∀ x : BitVec 1, x = 0 ∨ x = 1 := by decide
        rcases hx x with rfl | rfl
        · rfl
        · exact absurd ⟨rfl, rfl, rfl⟩ hbit
      · rw [operandOf_signed hw]
  | inttoptr =>
    cases hr
    have hname : pointerIntName.intType? = some (.fixed .w64 false) := rfl
    refine ⟨_, _, intValue?_cast hname he, ?_, ?_, ?_⟩
    · rintro ⟨hop, -⟩
      cases hop
    · rintro ⟨-, hw, -, hv, hneg⟩
      change writtenNumber w v x % 2 ^ 64 = _
      rw [writtenNumber_emod, if_pos (writtenNumber_lt_zero_iff.mpr ⟨hw, hv, hneg⟩)]
    · intro _ hsign
      change writtenNumber w v x % 2 ^ 64 = _
      rw [writtenNumber_emod]
      split_ifs with hneg
      · obtain ⟨hw, hv, hneg⟩ := writtenNumber_lt_zero_iff.mp hneg
        have hwide : w = .w64 := by
          by_contra hwide
          exact hsign ⟨rfl, hw, hwide, hv, hneg⟩
        subst hwide
        simp [Width.bits]
      · rw [Int.add_zero]
  | _ => cases hr

end

/-- A conversion to a floating-point number or an address is written with the integer that it
starts from as an expression of its own. This is the integer prescribed, with two exceptions: the
bit that stands for minus one is one, and a negative number that is made an address is too large,
because its sign is extended. -/
theorem integer_read_iff (wr : Writer) (s : Scope) (dest : String) (target : Ty) {op : CastOp}
    {w : Width} {v : Value} {env : String → Option IntValue} {x : BitVec w.bits} {r : Int}
    (hx : Denotes env w v x) (hr : op.reads? x = some r) (n : Needs) :
    ∃ e n', Gives (wr.statement s (.cast dest op (.int w) v target)) n
        (some (.assign (.ident (localName dest)) (.cast (declarationOf [] target ()) e))) n' ∧
      ∃ t k, e.intValue? env = some ⟨t, k⟩ ∧
        (k = r ↔ ¬BitSignLost op w x ∧ ¬SignInAddress op w v x) ∧
        (BitSignLost op w x → k = 1) ∧
        (SignInAddress op w v x → k = r + (2 ^ 64 - 2 ^ w.bits)) := by
  obtain ⟨e, hgives, t, he, -, -⟩ := hx.exists_number
  obtain ⟨n', hwritten⟩ := exists_gives_readExpr s dest target hr (hgives wr) n
  obtain ⟨t', k, hk, hbit, hsign, hright⟩ := intValue?_readExpr hr he
  refine ⟨_, n', hwritten, t', k, hk, ⟨fun h => ⟨?_, ?_⟩, fun h => hright h.1 h.2⟩, hbit, hsign⟩
  · intro hlost
    have hone := hbit hlost
    obtain ⟨rfl, rfl, hx1⟩ := hlost
    obtain rfl : x.toInt = r := Option.some.inj hr
    have hminus : x.toInt = -1 := by
      rw [show x = 1 from BitVec.eq_of_toNat_eq hx1]
      rfl
    omega
  · intro hin
    have hlarge := hsign hin
    obtain ⟨-, -, hwide, -⟩ := hin
    have hlt : (2 : Int) ^ w.bits < 2 ^ 64 := by
      cases w <;> first | decide | exact absurd rfl hwide
    omega

theorem integer_read_iff_negative :
    ∃ e n', Gives (hostWriter.statement ⟨⟨"m", none, none, [], [], []⟩, [], []⟩
        (.cast "c" .sitofp (.int .w8) (.var "a") .double)) {}
        (some (.assign (.ident (localName "c")) (.cast (declarationOf [] .double ()) e))) n' ∧
      ∃ t, e.intValue? (fun _ => some (encode .w8 (-7))) = some ⟨t, -7⟩ := by
  have hx : Denotes (fun _ => some (encode .w8 (-7))) .w8 (.var "a") (-7) := .var rfl
  have hr : CastOp.sitofp.reads? (-7 : BitVec Width.w8.bits) = some (-7) := by decide
  obtain ⟨e, n', hwritten, t, k, hk, hright, -⟩ :=
    integer_read_iff hostWriter ⟨⟨"m", none, none, [], [], []⟩, [], []⟩ "c" .double hx hr {}
  have hbit : ¬BitSignLost .sitofp .w8 (-7) := fun h => absurd h.2.1 (by decide)
  have haddress : ¬SignInAddress .sitofp .w8 (.var "a") (-7) := fun h => absurd h.1 (by decide)
  obtain rfl : k = -7 := hright.mpr ⟨hbit, haddress⟩
  exact ⟨e, n', hwritten, t, hk⟩

/-- The two exceptions occur: the eight-bit number with all bits set becomes the last address and
not the address 255, and the bit one is read as one and not as minus one. -/
theorem negative_integers_read_wrongly :
    (∃ e n', Gives (hostWriter.statement ⟨⟨"m", none, none, [], [], []⟩, [], []⟩
        (.cast "p" .inttoptr (.int .w8) (.var "a") (.ptr (.int .w8)))) {}
        (some (.assign (.ident (localName "p"))
          (.cast (declarationOf [] (.ptr (.int .w8)) ()) e))) n' ∧
      CastOp.inttoptr.reads? (255 : BitVec 8) = some 255 ∧
      e.intValue? (fun _ => some (encode .w8 255)) =
        some ⟨.fixed .w64 false, 18446744073709551615⟩) ∧
    ∃ e n', Gives (hostWriter.statement ⟨⟨"m", none, none, [], [], []⟩, [], []⟩
        (.cast "d" .sitofp (.int .w1) (.var "a") .double)) {}
        (some (.assign (.ident (localName "d")) (.cast (declarationOf [] .double ()) e))) n' ∧
      CastOp.sitofp.reads? (1 : BitVec 1) = some (-1) ∧
      e.intValue? (fun _ => some (encode .w1 1)) = some ⟨.bool, 1⟩ :=
  ⟨⟨_, _, rfl, rfl, rfl⟩, ⟨_, _, rfl, rfl, rfl⟩⟩

end Offload.C
