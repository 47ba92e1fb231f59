import Offload.Target.Triple
import Offload.Text.Numeral

/-!
# Data layouts

A layout string with the two facts that are read from it. Other components are kept in the text
and have no effect.
-/

namespace Offload.Target

structure DataLayout where
  isLittleEndian : Bool
  pointerBits : Nat
  text : String
deriving DecidableEq, Repr

namespace DataLayout

/-- The pointer size of a component `p:<bits>…`. -/
def pointerBits? (component : List Char) : Option Nat :=
  match component with
  | 'p' :: ':' :: rest =>
    (Text.splitOnChar ':' rest).head?.bind (Text.Numeral.natural? 10 UInt32.size)
  | _ => none

/-- Take one component into account; a later one wins. -/
def component (layout : DataLayout) (part : List Char) : DataLayout :=
  match part with
  | ['e'] => { layout with isLittleEndian := true }
  | ['E'] => { layout with isLittleEndian := false }
  | _ => { layout with pointerBits := (pointerBits? part).getD layout.pointerBits }

def parse (text : String) : DataLayout :=
  (Text.splitOnChar '-' text.toList).foldl component ⟨true, 64, text⟩

def ofTriple (t : Triple) : DataLayout :=
  let bits := toString t.pointerWidth
  parse ("e-p:" ++ bits ++ ":" ++ bits ++ ":" ++ bits ++
    "-i1:8:8-i8:8:8-i16:16:16-i32:32:32-i64:64:64-f32:32:32-f64:64:64")

end DataLayout

end Offload.Target
