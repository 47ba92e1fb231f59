import Offload.Compiled.Type
import Offload.Number.Format

/-!
# Values of compiled modules

Operands of instructions and initial values of globals, with their text.
-/

namespace Offload.Compiled

inductive Value where
  /-- A parameter or the result of an instruction. -/
  | var (name : String)
  /-- The address of a global. -/
  | symbol (name : String)
  | int (v : Int)
  | float (v : Binary64)
  | bool (b : Bool)
  | null
  | undef
  | zero
  | array (items : List (Ty × Value))
  | struct (items : List (Ty × Value))
deriving Repr

namespace Value

def varName? : Value → Option String
  | var name => some name
  | _ => none

mutual

def render : Value → String
  | var name => "%" ++ name
  | symbol name => "@" ++ name
  | int v => toString v
  | float v => v.scientific
  | bool b => if b then "true" else "false"
  | null => "null"
  | undef => "undef"
  | zero => "zeroinitializer"
  | array items => "[" ++ renderItems items ++ "]"
  | struct items => "\x7b " ++ renderItems items ++ " \x7d"

def renderItems : List (Ty × Value) → String
  | [] => ""
  | [(t, v)] => t.render ++ " " ++ render v
  | (t, v) :: rest => t.render ++ " " ++ render v ++ ", " ++ renderItems rest

end

end Value

/-- The type reached by stepping into `source`: the first index steps over the pointer and keeps
the type; a struct member is selected by a constant. -/
def indexedType (structs : List StructDef) (source : Ty) (indices : List (Ty × Value)) :
    Option Ty :=
  (indices.drop 1).foldlM stepInto source
where
  stepInto (t : Ty) (index : Ty × Value) : Option Ty :=
    match t, index.2 with
    | .array _ element, _ => some element
    | .struct name, .int i => do
      let d ← structs.find? (·.name == name)
      if i < 0 then none else d.fields[i.toNat]?
    | _, _ => none

end Offload.Compiled
