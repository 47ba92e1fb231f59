import Offload.C.Name
import Offload.C.Syntax
import Offload.Compiled.Module
import Offload.Target.Options

/-!
# Emission

What can go wrong when a module is turned into source, and what the source needs from elsewhere:
headers, the double extension, the prototype of the trap function.
-/

namespace Offload.C

open Offload.Compiled
open Offload.Target

inductive EmitFlaw where
  | containsItself (struct : String)
  | noFields (struct : String)
  | unknownStruct (name : String)
  | integerConstant (t : Ty)
  | constantOfType (v : Value) (t : Ty)
  | aggregateOperand
  | kernelResult
  | untypedValue (name : String)
  | noTerminator (label : String)
  | unknownBlock (label : String)
  | indexedBy (struct : String) (index : Value)
  | noField (struct : String) (index : Nat)
  | stepsIntoScalar (t : Ty)
  | unsupportedIntrinsic (callee : String)
  | intrinsicArity (callee : String) (arity found : Nat)
  | unavailable (function : String)
  | intrinsicType (callee : String) (t : Ty)
  | bitcast (source target : Ty)
deriving Repr

def EmitFlaw.message : EmitFlaw → String
  | containsItself struct => "struct type '%" ++ struct ++ "' contains itself"
  | noFields struct => "struct type '%" ++ struct ++ "' has no fields"
  | unknownStruct name => "unknown struct type '%" ++ name ++ "'"
  | integerConstant t => "integer constant of type " ++ t.render
  | constantOfType v t => v.render ++ " used as a value of type " ++ t.render
  | aggregateOperand => "aggregate constant used as an operand"
  | kernelResult => "kernel entry points must return void"
  | untypedValue name => "cannot type value '%" ++ name ++ "'"
  | noTerminator label => "block '" ++ label ++ "' has no terminator"
  | unknownBlock label => "branch to unknown block '" ++ label ++ "'"
  | indexedBy struct index => "struct '%" ++ struct ++ "' indexed by " ++ index.render
  | noField struct index => "struct '%" ++ struct ++ "' has no field " ++ toString index
  | stepsIntoScalar t => "getelementptr steps into scalar type " ++ t.render
  | unsupportedIntrinsic callee => "unsupported intrinsic '@" ++ callee ++ "'"
  | intrinsicArity callee arity found =>
    "'@" ++ callee ++ "' takes " ++ toString arity ++ " operands, found " ++ toString found
  | unavailable function => function ++ " is not available for this target"
  | intrinsicType callee t => "'@" ++ callee ++ "' on non-float type " ++ t.render
  | bitcast source target => "bitcast from " ++ source.render ++ " to " ++ target.render

/-- A flaw in the entity of the given name. -/
structure EmitError where
  entity : String
  flaw : EmitFlaw
deriving Repr

def EmitError.message (e : EmitError) : String :=
  "cannot emit '" ++ e.entity ++ "': " ++ e.flaw.message

/-- What the source uses without defining it. -/
structure Needs where
  headers : List Header := []
  usesDouble : Bool := false
  usesTrap : Bool := false

abbrev Emit := StateT Needs (Except EmitFlaw)

namespace Emit

def fail (flaw : EmitFlaw) : Emit α := throw flaw

def needHeader (h : Header) : Emit Unit := modify fun n => { n with headers := h :: n.headers }

end Emit

/-- What emission depends on besides the module. -/
structure Writer where
  dialect : Dialect
  triple : Triple
  options : TargetOptions
  verbose : Bool
  library : Library
  /-- Names of the functions that are kernels. -/
  kernels : List String

namespace Writer

/-- C99 declares its mathematics in a header; a device has it built in. -/
def needMath (w : Writer) : Emit Unit :=
  match w.dialect with
  | .c99 => Emit.needHeader .math
  | .openCl => return ()

def isKernel (w : Writer) (f : Function) : Bool :=
  w.dialect == .openCl && w.kernels.contains f.name

end Writer

/-- The declarator grows from the declared entity outwards: a pointer to an array takes
parentheses, because the brackets bind first. -/
def declaratorOf : Ty → Declarator α → Specifier × Declarator α
  | .void, d => (.void, d)
  | .int w, d => (if w = .w1 then .bool else .int w true, d)
  | .float, d => (.float, d)
  | .double, d => (.double, d)
  | .struct name, d => (.struct (structTag name), d)
  | .array n element, d => declaratorOf element (.array d n)
  | .ptr (.array n element), d => declaratorOf (.array n element) (.paren (.pointer d))
  | .ptr pointee, d => declaratorOf pointee (.pointer d)

/-- The declaration of an entity of some type. -/
def declarationOf (qualifiers : List Qualifier) (t : Ty) (entity : α) : Declaration α :=
  let (specifier, declarator) := declaratorOf t (.entity entity)
  ⟨qualifiers, specifier, declarator⟩

namespace Emit

/-- Declare an entity, noting that the source uses doubles if it does. -/
def declare (qualifiers : List Qualifier) (t : Ty) (entity : α) : Emit (Declaration α) := do
  let d := declarationOf qualifiers t entity
  if d.specifier == .double then modify fun n => { n with usesDouble := true }
  return d

def typeName (t : Ty) : Emit TypeName := declare [] t ()

/-- The unsigned type of an integer type; any other type is kept. -/
def unsignedName (t : Ty) : Emit TypeName :=
  match t with
  | .int .w1 => typeName t
  | .int w => return ⟨[], .int w false, .entity ()⟩
  | _ => typeName t

end Emit

def pointerIntName : TypeName := ⟨[], .pointerInt, .entity ()⟩

def boolName : TypeName := ⟨[], .bool, .entity ()⟩

end Offload.C
