/-!
# Types of compiled modules

Scalars, pointers, arrays and named structs. A pointer to `void` is the untyped pointer `ptr`: a
typed module has no `void*` and writes `i8*` for it.
-/

namespace Offload.Compiled

/-- The integer widths a module can use. -/
inductive Width where
  | w1 | w8 | w16 | w32 | w64
deriving DecidableEq, Repr

namespace Width

def bits : Width → Nat
  | w1 => 1
  | w8 => 8
  | w16 => 16
  | w32 => 32
  | w64 => 64

def ofBits? : Nat → Option Width
  | 1 => some w1
  | 8 => some w8
  | 16 => some w16
  | 32 => some w32
  | 64 => some w64
  | _ => none

end Width

inductive Ty where
  | void
  | int (w : Width)
  | float
  | double
  | ptr (pointee : Ty)
  | array (length : Nat) (element : Ty)
  /-- A struct type by name. -/
  | struct (name : String)
deriving DecidableEq, Repr

namespace Ty

def untypedPtr : Ty := .ptr .void

def isVoid : Ty → Bool
  | void => true
  | _ => false

def isInt : Ty → Bool
  | int _ => true
  | _ => false

def isFloat : Ty → Bool
  | float | double => true
  | _ => false

def isPtr : Ty → Bool
  | ptr _ => true
  | _ => false

def pointee? : Ty → Option Ty
  | ptr inner => some inner
  | _ => none

/-- The pointee of a typed pointer. -/
def typedPointee? (t : Ty) : Option Ty := t.pointee?.filter fun p => !p.isVoid

def render : Ty → String
  | void => "void"
  | int w => "i" ++ toString w.bits
  | float => "float"
  | double => "double"
  | ptr void => "ptr"
  | ptr inner => inner.render ++ "*"
  | array n element => "[" ++ toString n ++ " x " ++ element.render ++ "]"
  | struct name => "%" ++ name

end Ty

/-- A named struct type. -/
structure StructDef where
  name : String
  fields : List Ty
  /-- No padding between the fields. -/
  isPacked : Bool
  /-- Declared without fields; usable only behind a pointer. -/
  isOpaque : Bool
deriving DecidableEq, Repr

end Offload.Compiled
