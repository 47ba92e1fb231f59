import Offload.Number.Shortest

/-!
# Texts of doubles

Two forms of one selection of digits: `scientific` has one digit before the point and always an
exponent, `positional` never has one. Zero keeps its sign.
-/

namespace Offload.Binary64

open Offload.Number

/-- Digits of a finite magnitude and the power of ten of the last of them. -/
def decimal (x : Binary64) : Decimal :=
  if x.magnitude = 0 then ⟨0, 0⟩ else (Dyadic.ofMagnitude x.magnitude).shortest

/-- A sign for negative values, then the special values or the given form of the digits. -/
def signed (x : Binary64) (finite : Decimal → String) : String :=
  if x.isNaN then "NaN"
  else (if x.isNegative then "-" else "") ++ (if x.isInfinite then "inf" else finite x.decimal)

/-- `d.ddde±x`: no point after a single digit, no plus sign in the exponent. -/
def scientific (x : Binary64) : String :=
  x.signed fun d =>
    let ds := Nat.toDigits 10 d.digits
    let exponent := d.exponent + (ds.length : Int) - 1
    let fraction := ds.drop 1
    let mantissa := ds.take 1 ++ (if fraction.isEmpty then [] else '.' :: fraction)
    String.ofList mantissa ++ "e" ++ toString exponent

/-- Plain digits with a point only before a fraction. -/
def positional (x : Binary64) : String :=
  x.signed fun d =>
    let ds := Nat.toDigits 10 d.digits
    if 0 ≤ d.exponent then
      String.ofList (ds ++ List.replicate d.exponent.toNat '0')
    else
      let places := (-d.exponent).toNat
      let padded := List.replicate (places + 1 - ds.length) '0' ++ ds
      let whole := padded.length - places
      String.ofList (padded.take whole ++ '.' :: padded.drop whole)

end Offload.Binary64
