import Offload.C.Syntax

/-!
# Printing generated source

The text of each part of a source file, in the dialect's spelling.
-/

namespace Offload.C

open Offload.Compiled (Width)

def AddressSpace.render : AddressSpace → String
  | global => "__global"
  | constant => "__constant"

def Qualifier.render : Qualifier → String
  | static => "static"
  | external => "extern"
  | readOnly => "const"
  | kernel => "__kernel"
  | space s => s.render

/-- Integer types by width and sign; there is one type of width one. -/
def intName : Dialect → Width → Bool → String
  | _, .w1, _ => "bool"
  | .c99, .w8, signed => if signed then "int8_t" else "uint8_t"
  | .c99, .w16, signed => if signed then "int16_t" else "uint16_t"
  | .c99, .w32, signed => if signed then "int32_t" else "uint32_t"
  | .c99, .w64, signed => if signed then "int64_t" else "uint64_t"
  | .openCl, .w8, signed => if signed then "char" else "uchar"
  | .openCl, .w16, signed => if signed then "short" else "ushort"
  | .openCl, .w32, signed => if signed then "int" else "uint"
  | .openCl, .w64, signed => if signed then "long" else "ulong"

def structName (tag : String) : String := "struct " ++ tag

def Specifier.render (d : Dialect) : Specifier → String
  | void => "void"
  | bool => "bool"
  | int w signed => intName d w signed
  | pointerInt => "uintptr_t"
  | float => "float"
  | double => "double"
  | struct tag => structName tag

def Declarator.render (entityText : α → String) : Declarator α → String
  | entity a => entityText a
  | pointer d => "*" ++ d.render entityText
  | array d n => d.render entityText ++ "[" ++ toString n ++ "]"
  | paren d => "(" ++ d.render entityText ++ ")"

def Declaration.render (dialect : Dialect) (entityText : α → String) (d : Declaration α) : String :=
  let text := d.declarator.render entityText
  String.join (d.qualifiers.map fun q => q.render ++ " ") ++ d.specifier.render dialect ++
    (if text.isEmpty then "" else " " ++ text)

def TypeName.render (dialect : Dialect) (t : TypeName) : String :=
  Declaration.render dialect (fun () => "") t

def Variable.render (dialect : Dialect) (v : Variable) : String := Declaration.render dialect id v

/-- An empty list is written `void`; before `...` there must be a parameter, so a variadic
function without any has empty parentheses. -/
def FunctionHead.render (dialect : Dialect) (f : FunctionHead) : String :=
  let params := f.params.map (Variable.render dialect)
  let all := if f.isVariadic then params ++ ["..."] else params
  let text :=
    if f.params.isEmpty then (if f.isVariadic then "" else "void") else ", ".intercalate all
  f.name ++ "(" ++ text ++ ")"

def Prototype.render (dialect : Dialect) (p : Prototype) : String :=
  Declaration.render dialect (FunctionHead.render dialect) p

def UnaryOp.render : UnaryOp → String
  | neg => "-"
  | not => "!"
  | address => "&"
  | deref => "*"

def BinaryOp.render : BinaryOp → String
  | add => "+"
  | sub => "-"
  | mul => "*"
  | div => "/"
  | rem => "%"
  | shl => "<<"
  | shr => ">>"
  | and => "&"
  | or => "|"
  | xor => "^"
  | eq => "=="
  | ne => "!="
  | lt => "<"
  | le => "<="
  | gt => ">"
  | ge => ">="
  | land => "&&"
  | lor => "||"

/-- OpenCL has a function for each target type; C99 stores into a union and reads the other
member. -/
def renderReinterpret (d : Dialect) (source target e : String) : String :=
  match d with
  | .openCl => "as_" ++ target ++ "(" ++ e ++ ")"
  | .c99 =>
    "((union \x7b " ++ source ++ " f; " ++ target ++ " t; \x7d)\x7b .f = " ++ e ++ " \x7d).t"

mutual

def Expr.render (d : Dialect) : Expr → String
  | .ident name => name
  | .int v long => toString v ++ (if long then "LL" else "")
  | .real text => text
  | .unary op e => op.render ++ e.render d
  | .binary op a b => a.render d ++ " " ++ op.render ++ " " ++ b.render d
  | .conditional c a b => c.render d ++ " ? " ++ a.render d ++ " : " ++ b.render d
  | .cast t e => "(" ++ TypeName.render d t ++ ")" ++ e.render d
  | .paren e => "(" ++ e.render d ++ ")"
  | .call function args => function ++ "(" ++ ", ".intercalate (renderArgs d args) ++ ")"
  | .index a i => a.render d ++ "[" ++ i.render d ++ "]"
  | .member a field => a.render d ++ "." ++ field
  | .zeroStruct t => "(" ++ TypeName.render d t ++ ")\x7b0\x7d"
  | .reinterpret source target e =>
    renderReinterpret d (TypeName.render d source) (TypeName.render d target) (e.render d)

def renderArgs (d : Dialect) : List Expr → List String
  | [] => []
  | e :: rest => e.render d :: renderArgs d rest

end

mutual

def Initializer.render (d : Dialect) : Initializer → String
  | .expr e => e.render d
  | .zero => "\x7b0\x7d"
  | .list items => "\x7b " ++ ", ".intercalate (renderItems d items) ++ " \x7d"

def renderItems (d : Dialect) : List Initializer → List String
  | [] => []
  | i :: rest => i.render d :: renderItems d rest

end

def GlobalVariable.render (d : Dialect) (g : GlobalVariable) : String :=
  let init := match g.init with
    | some i => " = " ++ i.render d
    | none => ""
  Variable.render d g.declaration ++ init ++ ";\n"

def StructDefinition.render (d : Dialect) (s : StructDefinition) : String :=
  structName s.tag ++ " \x7b\n" ++
    String.join (s.fields.map fun f => "  " ++ Variable.render d f ++ ";\n") ++
    "\x7d" ++ (if s.isPacked then " __attribute__((packed))" else "") ++ ";\n"

def Statement.render (d : Dialect) : Statement → String
  | assign target value => target.render d ++ " = " ++ value.render d ++ ";"
  | eval e => e.render d ++ ";"

def Edge.render (d : Dialect) (indent : String) (e : Edge) : String :=
  String.join (e.copies.map fun c => indent ++ c.1 ++ " = " ++ c.2.render d ++ ";\n") ++
    indent ++ "goto " ++ e.target ++ ";\n"

def unreachableText : String := "  __builtin_unreachable();\n"

def Exit.render (d : Dialect) : Exit → String
  | ret none => "  return;\n"
  | ret (some e) => "  return " ++ e.render d ++ ";\n"
  | jump e => e.render d "  "
  | branch condition onTrue onFalse =>
    "  if (" ++ condition.render d ++ ") \x7b\n" ++ onTrue.render d "    " ++
      "  \x7d else \x7b\n" ++ onFalse.render d "    " ++ "  \x7d\n"
  | switch value cases default =>
    "  switch (" ++ value.render d ++ ") \x7b\n" ++
      String.join (cases.map fun c =>
        "  case " ++ c.1.render d ++ ": \x7b\n" ++ c.2.render d "    " ++ "  \x7d\n") ++
      "  default: \x7b\n" ++ default.render d "    " ++ "  \x7d\n  \x7d\n"
  | trap none => unreachableText
  | trap (some function) => "  " ++ function ++ "();\n" ++ unreachableText

def Block.render (d : Dialect) (b : Block) : String :=
  b.label ++ ":\n" ++
    String.join (b.statements.map fun s => "  " ++ s.render d ++ "\n") ++ b.exit.render d

def commentLine (text : String) : String := "/* " ++ text ++ " */\n"

def FunctionDefinition.render (d : Dialect) (f : FunctionDefinition) : String :=
  let locals := String.join (f.locals.map fun v => "  " ++ Variable.render d v ++ ";\n")
  (f.comment.map commentLine).getD "" ++ Prototype.render d f.prototype ++ " \x7b\n" ++
    locals ++ (if f.locals.isEmpty then "" else "\n") ++
    String.join (f.blocks.map (·.render d)) ++ "\x7d\n\n"

/-- What stands ahead of all declarations. -/
def SourceFile.preamble (f : SourceFile) : String :=
  let switchText (words : String) : String := match f.contraction with
    | some true => words ++ " ON\n"
    | some false => words ++ " OFF\n"
    | none => ""
  let body := match f.dialect with
    | .c99 =>
      "#include <stdint.h>\n#include <stdbool.h>\n" ++
        String.join (f.headers.map fun h => "#include <" ++ h.file ++ ">\n") ++
        switchText "#pragma STDC FP_CONTRACT"
    | .openCl =>
      (if f.usesDouble then "#pragma OPENCL EXTENSION cl_khr_fp64 : enable\n" else "") ++
        switchText "#pragma OPENCL FP_CONTRACT"
  String.join (f.comments.map commentLine) ++ body ++ "\n"

/-- A section is closed by an empty line, and left out if there is nothing in it. -/
def sectionText (text : String) : String := if text.isEmpty then "" else text ++ "\n"

def SourceFile.render (f : SourceFile) : String :=
  let d := f.dialect
  let structs := String.join (f.tags.map fun t => structName t ++ ";\n") ++
    String.join (f.structs.map (·.render d))
  let prototypes := String.join (f.prototypes.map fun p => Prototype.render d p ++ ";\n")
  let globals := String.join (f.globals.map (·.render d))
  f.preamble ++ sectionText structs ++ sectionText prototypes ++ sectionText globals ++
    String.join (f.functions.map (·.render d))

end Offload.C
