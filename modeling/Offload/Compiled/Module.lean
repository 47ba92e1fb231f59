import Offload.Compiled.Instruction

/-!
# Modules

Functions of labelled blocks, globals and struct types, in the order in which they were read.
-/

namespace Offload.Compiled

structure BasicBlock where
  label : String
  instructions : List Instruction
  /-- Missing only in a module that has not been verified. -/
  terminator : Option Terminator
deriving Repr

inductive Linkage where
  | external
  | internal
deriving DecidableEq, Repr

structure Param where
  name : String
  type : Ty
deriving DecidableEq, Repr

structure Function where
  name : String
  linkage : Linkage
  result : Ty
  params : List Param
  /-- Takes further arguments after `params`. -/
  isVariadic : Bool
  /-- Empty for a declaration. -/
  blocks : List BasicBlock
deriving Repr

namespace Function

def isDeclaration (f : Function) : Bool := f.blocks.isEmpty

def block? (f : Function) (label : String) : Option BasicBlock :=
  f.blocks.find? (·.label == label)

def instructions (f : Function) : List Instruction := f.blocks.flatMap (·.instructions)

end Function

structure Global where
  name : String
  linkage : Linkage
  type : Ty
  isConstant : Bool
  /-- Missing for a global that is defined elsewhere. -/
  init : Option Value
deriving Repr

structure Module where
  name : String
  triple : Option String := none
  dataLayout : Option String := none
  structs : List StructDef := []
  globals : List Global := []
  functions : List Function := []
deriving Repr

namespace Module

def function? (m : Module) (name : String) : Option Function := m.functions.find? (·.name == name)

def global? (m : Module) (name : String) : Option Global := m.globals.find? (·.name == name)

def struct? (m : Module) (name : String) : Option StructDef := m.structs.find? (·.name == name)

end Module

end Offload.Compiled
