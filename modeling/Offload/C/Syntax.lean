import Offload.Compiled.Type
import Offload.Target.Library

/-!
# Generated source as a tree

Declarations, expressions and functions in the shape in which they are printed: parentheses are
part of the tree, so printing adds none.
-/

namespace Offload.C

open Offload.Compiled (Width)
open Offload.Target (Header)

/-- The language that is written. -/
inductive Dialect where
  /-- C99 with fixed-width integer types. -/
  | c99
  /-- OpenCL C with kernel entry points. -/
  | openCl
deriving DecidableEq, Repr

def Dialect.name : Dialect → String
  | c99 => "C99"
  | openCl => "OpenCL C"

/-- Where a pointer of a device function points to. -/
inductive AddressSpace where
  | global
  | constant
deriving DecidableEq, Repr

/-- Words before a declaration's type. -/
inductive Qualifier where
  | static
  | external
  | readOnly
  | kernel
  | space (s : AddressSpace)
deriving DecidableEq, Repr

/-- The type that a declaration starts with. -/
inductive Specifier where
  | void
  | bool
  | int (w : Width) (signed : Bool)
  | pointerInt
  | float
  | double
  | struct (tag : String)
deriving DecidableEq, Repr

/-- What follows the type: the declared entity, with what is made of it. -/
inductive Declarator (α : Type) where
  | entity (a : α)
  | pointer (d : Declarator α)
  | array (d : Declarator α) (length : Nat)
  | paren (d : Declarator α)
deriving DecidableEq, Repr

structure Declaration (α : Type) where
  qualifiers : List Qualifier
  specifier : Specifier
  declarator : Declarator α
deriving DecidableEq, Repr

/-- A declaration without a name. -/
abbrev TypeName := Declaration Unit

/-- A variable, parameter or struct member. -/
abbrev Variable := Declaration String

structure FunctionHead where
  name : String
  params : List Variable
  isVariadic : Bool
deriving DecidableEq, Repr

abbrev Prototype := Declaration FunctionHead

inductive UnaryOp where
  | neg | not | address | deref
deriving DecidableEq, Repr

inductive BinaryOp where
  | add | sub | mul | div | rem | shl | shr | and | or | xor
  | eq | ne | lt | le | gt | ge
  | land | lor
deriving DecidableEq, Repr

inductive Expr where
  | ident (name : String)
  /-- A decimal integer constant, with a suffix if `long`; a negative one has a minus. -/
  | int (v : Int) (long : Bool)
  /-- A floating-point constant or a constant from a header. -/
  | real (text : String)
  | unary (op : UnaryOp) (e : Expr)
  | binary (op : BinaryOp) (a b : Expr)
  | conditional (c a b : Expr)
  | cast (t : TypeName) (e : Expr)
  | paren (e : Expr)
  | call (function : String) (args : List Expr)
  | index (a i : Expr)
  | member (a : Expr) (field : String)
  /-- A struct whose members are all zero. -/
  | zeroStruct (t : TypeName)
  /-- The bits of a value as a value of another type. -/
  | reinterpret (source target : TypeName) (e : Expr)
deriving Repr

inductive Initializer where
  | expr (e : Expr)
  | zero
  | list (items : List Initializer)
deriving Repr

structure GlobalVariable where
  declaration : Variable
  init : Option Initializer
deriving Repr

structure StructDefinition where
  tag : String
  fields : List Variable
  isPacked : Bool
deriving DecidableEq, Repr

inductive Statement where
  | assign (target value : Expr)
  | eval (e : Expr)
deriving Repr

/-- A way from one block to another: assignments to the temporaries of the target's phis, then the
jump. -/
structure Edge where
  copies : List (String × Expr)
  target : String
deriving Repr

/-- How a block ends. -/
inductive Exit where
  | ret (result : Option Expr)
  | jump (e : Edge)
  | branch (condition : Expr) (onTrue onFalse : Edge)
  | switch (value : Expr) (cases : List (Expr × Edge)) (default : Edge)
  /-- A point that is never reached, with the function to call if it is. -/
  | trap (function : Option String)
deriving Repr

structure Block where
  label : String
  statements : List Statement
  exit : Exit
deriving Repr

structure FunctionDefinition where
  comment : Option String
  prototype : Prototype
  locals : List Variable
  blocks : List Block
deriving Repr

/-- Whether floating-point contraction is asked for, forbidden or left alone. -/
abbrev Contraction := Option Bool

structure SourceFile where
  dialect : Dialect
  comments : List String
  headers : List Header
  usesDouble : Bool
  contraction : Contraction
  /-- Tags of all struct types, declared ahead of their definitions. -/
  tags : List String
  structs : List StructDefinition
  prototypes : List Prototype
  globals : List GlobalVariable
  functions : List FunctionDefinition
deriving Repr

end Offload.C
