/-!
# Numerals

Decimal and hexadecimal numerals as they appear in module texts and layout strings: an optional
sign, at least one digit, and a value within given bounds.
-/

namespace Offload.Text.Numeral

/-- Value of a digit in bases up to sixteen. -/
def digit? (base : Nat) (c : Char) : Option Nat :=
  let value :=
    if c.isDigit then some (c.toNat - '0'.toNat)
    else if 'a' ≤ c && c ≤ 'f' then some (c.toNat - 'a'.toNat + 10)
    else if 'A' ≤ c && c ≤ 'F' then some (c.toNat - 'A'.toNat + 10)
    else none
  value.filter (· < base)

/-- Value of a run of digits continuing a number already read. -/
def digitsFrom (base : Nat) : Nat → List Char → Option Nat
  | value, [] => some value
  | value, c :: rest =>
    match digit? base c with
    | some d => digitsFrom base (value * base + d) rest
    | none => none

/-- Value of a non-empty run of digits. -/
def digits? (base : Nat) : List Char → Option Nat
  | [] => none
  | cs => digitsFrom base 0 cs

/-- A numeral below `bound`, with an optional plus sign. -/
def natural? (base bound : Nat) (cs : List Char) : Option Nat :=
  let body := match cs with
    | '+' :: rest => rest
    | _ => cs
  (digits? base body).filter (· < bound)

/-- Magnitudes of 64-bit integers are below this bound, or equal to it under a minus sign. -/
def signedBound : Nat := 0x8000000000000000

/-- A signed numeral in the range of 64-bit integers. -/
def integer? (cs : List Char) : Option Int :=
  match cs with
  | '-' :: rest => ((digits? 10 rest).filter (· ≤ signedBound)).map fun n => -(n : Int)
  | '+' :: rest => ((digits? 10 rest).filter (· < signedBound)).map Int.ofNat
  | _ => ((digits? 10 cs).filter (· < signedBound)).map Int.ofNat

/-- Digits of a number in a base up to sixteen, with lower-case letters. -/
def write (base n : Nat) : List Char := Nat.toDigits base n

/-- At least `width` digits, filled with zeros on the left. -/
def writePadded (base width n : Nat) : List Char :=
  let ds := write base n
  List.replicate (width - ds.length) '0' ++ ds

end Offload.Text.Numeral
