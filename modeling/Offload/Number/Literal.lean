import Offload.Number.Binary64
import Offload.Text.Numeral

/-!
# Decimal literals

Reads `[+-] digits [. digits] [(e|E) [+-] digits]` with at least one digit before or after the
point, as the double nearest to the value written.
-/

namespace Offload.Binary64

/-- An exponent: an optional sign and at least one digit. -/
def exponent? (cs : List Char) : Option Int :=
  match cs with
  | '-' :: rest => (Text.Numeral.digits? 10 rest).map fun n => -(n : Int)
  | '+' :: rest => (Text.Numeral.digits? 10 rest).map Int.ofNat
  | _ => (Text.Numeral.digits? 10 cs).map Int.ofNat

/-- The literal without its sign. -/
def unsigned? (negative : Bool) (cs : List Char) : Option Binary64 :=
  let whole := cs.takeWhile Char.isDigit
  let afterWhole := cs.dropWhile Char.isDigit
  let (fraction, tail) := match afterWhole with
    | '.' :: rest => (rest.takeWhile Char.isDigit, rest.dropWhile Char.isDigit)
    | _ => ([], afterWhole)
  match Text.Numeral.digits? 10 (whole ++ fraction) with
  | none => none
  | some digits =>
    let shift : Int := fraction.length
    match tail with
    | [] => some (ofDecimal negative digits (-shift))
    | 'e' :: rest | 'E' :: rest =>
      (exponent? rest).map fun e => ofDecimal negative digits (e - shift)
    | _ => none

def ofLiteral? (cs : List Char) : Option Binary64 :=
  match cs with
  | '-' :: rest => unsigned? true rest
  | '+' :: rest => unsigned? false rest
  | _ => unsigned? false cs

end Offload.Binary64
