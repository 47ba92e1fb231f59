/-!
# Double precision numbers

A double is held as its 64 bits, so that equality is equality of representations and every
operation is exact arithmetic on naturals. `Binary64.ofRatio` rounds a quotient to the nearest
double, ties to even; overflow gives infinity.
-/

namespace Offload

/-- The power `base ^ e`, and one for a negative exponent: a fraction is written with its negative
powers in the denominator. -/
def Number.power (base : Nat) (e : Int) : Nat := Nat.pow base e.toNat

/-- An IEEE 754 binary64 datum. -/
structure Binary64 where
  bits : UInt64
deriving DecidableEq, Repr, Inhabited

namespace Binary64

open Number

def isNegative (x : Binary64) : Bool := x.bits >>> 63 == 1

/-- Bits below the sign. -/
def magnitude (x : Binary64) : Nat := (x.bits &&& 0x7FFFFFFFFFFFFFFF).toNat

/-- Magnitude of the infinities; larger magnitudes are not numbers. -/
def infinite : Nat := 0x7FF0000000000000

/-- Unit of the exponent field, and the leading bit of a significand that is not subnormal. -/
def leadingBit : Nat := 0x10000000000000

def isInfinite (x : Binary64) : Bool := x.magnitude == infinite

def isNaN (x : Binary64) : Bool := infinite < x.magnitude

def ofMagnitude (negative : Bool) (m : Nat) : Binary64 :=
  ⟨(if negative then 0x8000000000000000 else 0) + m.toUInt64⟩

/-- Quotient rounded to the nearest natural, ties to even. -/
def roundDiv (num den : Nat) : Nat :=
  let q := num / den
  let r := num % den
  if 2 * r < den then q
  else if den < 2 * r then q + 1
  else q + q % 2

/-- Numerator and denominator of `num / den / 2 ^ e`. -/
def scaled (num den : Nat) (e : Int) : Nat × Nat :=
  (num * power 2 (-e), den * power 2 e)

/-- Magnitude of the double nearest to `num / den`, for a positive quotient. The binary exponent
is chosen so that the significand has 53 bits, or is as small as -1074 allows. A significand
rounded up to 54 bits carries into the exponent by itself. -/
def nearest (num den : Nat) : Nat :=
  let estimate : Int := (num.log2 : Int) - (den.log2 : Int) - 53
  let low := max (-1074) estimate
  let (n, d) := scaled num den low
  let e := if n / d < 2 * leadingBit then low else low + 1
  let (n, d) := scaled num den e
  min (roundDiv n d + (e + 1074).toNat * leadingBit) infinite

/-- The double nearest to a quotient with the given sign. -/
def ofRatio (negative : Bool) (num den : Nat) : Binary64 :=
  ofMagnitude negative (if num = 0 then 0 else nearest num den)

def ofInt (v : Int) : Binary64 := ofRatio (v < 0) v.natAbs 1

def negativeZero : Binary64 := ofMagnitude true 0

/-- The double nearest to `± digits * 10 ^ exponent`. A magnitude outside `10 ^ ± 400` is settled
by its digit count alone. -/
def ofDecimal (negative : Bool) (digits : Nat) (exponent : Int) : Binary64 :=
  let scale := ((Nat.toDigits 10 digits).length : Int) + exponent
  if digits = 0 ∨ scale < -400 then ofMagnitude negative 0
  else if 400 < scale then ofMagnitude negative infinite
  else ofRatio negative (digits * power 10 exponent) (power 10 (-exponent))

end Binary64

end Offload
