import Offload.Number.Binary64

/-!
# Shortest decimals

The decimal with the fewest digits that reads back as a given positive double; of several the
nearest, and of two equally near the larger. A double `m * 2 ^ q` is read back by exactly the reals
between the midpoints to its neighbours, the midpoints included when `m` is even.
-/

namespace Offload.Number

/-- A finite positive double `significand * 2 ^ exponent`. -/
structure Dyadic where
  significand : Nat
  exponent : Int
  /-- The neighbour below is only half as far away as the one above. -/
  closeBelow : Bool

/-- Reading of a finite magnitude. -/
def Dyadic.ofMagnitude (m : Nat) : Dyadic :=
  let field : Nat := m / Binary64.leadingBit
  let fraction : Nat := m % Binary64.leadingBit
  if field = 0 then ⟨fraction, -1074, false⟩
  else ⟨Binary64.leadingBit + fraction, (field : Int) - 1075, fraction == 0 && 1 < field⟩

/-- The number `digits * 10 ^ exponent`. -/
structure Decimal where
  digits : Nat
  exponent : Int
deriving DecidableEq, Repr

namespace Dyadic

/-- Exact comparison of `a * 10 ^ i` with `n * 2 ^ j`. -/
def compareScaled (a : Nat) (i : Int) (n : Nat) (j : Int) : Ordering :=
  compare (a * power 10 i * power 2 (-j)) (n * power 2 j * power 10 (-i))

/-- The decimal lies among the reals that round to `x`. -/
def readsBack (x : Dyadic) (d : Decimal) : Bool :=
  let below := 4 * x.significand - (if x.closeBelow then 1 else 2)
  let above := 4 * x.significand + 2
  let included := x.significand % 2 == 0
  let low := compareScaled d.digits d.exponent below (x.exponent - 2)
  let high := compareScaled d.digits d.exponent above (x.exponent - 2)
  (low == .gt || (included && low == .eq)) && (high == .lt || (included && high == .eq))

/-- The grid point of spacing `10 ^ e` at or below `x`. -/
def floorAt (x : Dyadic) (e : Int) : Nat :=
  (x.significand * power 2 x.exponent * power 10 (-e)) / (power 2 (-x.exponent) * power 10 e)

/-- The grid point of spacing `10 ^ e` nearest to `x` among those that read back; the larger of two
equally near. -/
def pointAt? (x : Dyadic) (e : Int) : Option Decimal :=
  let low : Decimal := ⟨x.floorAt e, e⟩
  let high : Decimal := ⟨low.digits + 1, e⟩
  match x.readsBack low, x.readsBack high with
  | true, true =>
    -- twice `x` against the sum of the two points
    if compareScaled (low.digits + high.digits) e x.significand (x.exponent + 1) == .gt then
      some low
    else
      some high
  | true, false => some low
  | false, true => some high
  | false, false => none

/-- Least `k` with `x < 10 ^ k`, found upward from a lower estimate. -/
def decimalScale (x : Dyadic) : Int :=
  let binary : Int := (x.significand.log2 : Int) + x.exponent
  let estimate := binary * 30103 / 100000
  let fits (k : Int) : Bool := compareScaled 1 k x.significand x.exponent == .gt
  if fits (estimate - 1) then estimate - 1
  else if fits estimate then estimate
  else if fits (estimate + 1) then estimate + 1
  else estimate + 2

/-- Move trailing zeros of the digits into the exponent. -/
def stripZeros : Nat → Decimal → Decimal
  | 0, d => d
  | fuel + 1, d =>
    if d.digits ≠ 0 ∧ d.digits % 10 = 0 then stripZeros fuel ⟨d.digits / 10, d.exponent + 1⟩ else d

/-- The exact value, which always reads back. -/
def exact (x : Dyadic) : Decimal :=
  ⟨x.significand * power 2 x.exponent * power 5 (-x.exponent), min x.exponent 0⟩

/-- Grids are tried from one digit to seventeen. -/
def shortest (x : Dyadic) : Decimal :=
  let k := x.decimalScale
  let found := (List.range 17).findSome? fun n : Nat => x.pointAt? (k - (n : Int) - 1)
  let d := found.getD x.exact
  stripZeros (Nat.toDigits 10 d.digits).length d

end Dyadic

end Offload.Number
