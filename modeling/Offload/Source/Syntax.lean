import Offload.Source.Directive

/-!
# Declaration trees

What the splitter looks at in a source file. Declarations it never edits and statements without
calls are kept as spans only; the only expressions are calls and lambdas.
-/

namespace Offload.Source

/-- A parameter with its type text. -/
structure Param where
  name : Option String
  type : String
  span : Span
deriving DecidableEq, Repr

/-- An attribute argument: a single string literal, or anything else as it is spelled. -/
inductive AttributeArg where
  | str (text : Located String)
  | other (text : Located String)
deriving DecidableEq, Repr

/-- One entry of a GNU attribute list. -/
structure Attribute where
  name : String
  location : Span
  fromMacro : Bool
  /-- Written before the name of the function. -/
  beforeName : Bool
  args : List AttributeArg
deriving DecidableEq, Repr

inductive CaptureDefault where
  | byRef
  | byCopy
deriving DecidableEq, Repr

inductive CaptureKind where
  | byRef
  | byCopy
  | this
  | starThis
  /-- `x = e` or `&x = e`. -/
  | init
deriving DecidableEq, Repr

def CaptureDefault.kind : CaptureDefault → CaptureKind
  | .byRef => .byRef
  | .byCopy => .byCopy

/-- A captured name; `type` is that of the parameter or local it refers to. -/
structure Capture where
  name : String
  kind : CaptureKind
  type : Option String
  isImplicit : Bool
  span : Span
deriving DecidableEq, Repr

/-- A lambda up to its body. -/
structure LambdaHead where
  span : Span
  /-- The bracketed capture list. -/
  introducer : Span
  captureDefault : Option CaptureDefault
  captures : List Capture
  params : List Param
  /-- The parameter list with its parentheses. -/
  paramsSpan : Option Span
deriving DecidableEq, Repr

/-- A call up to its arguments. -/
structure CallHead where
  /-- Path as written, without template arguments. -/
  callee : List String
  isMember : Bool
  span : Span
deriving DecidableEq, Repr

mutual

/-- Statements between braces. -/
inductive Block where
  | mk (range : SourceRange) (stmts : List Stmt)

inductive Stmt where
  /-- Variables of one declaration; the expressions are those of the initializers. -/
  | vars (names : List (Located String)) (type : String) (span : Span) (exprs : List Expr)
  | block (body : Block)
  | other (span : Span) (exprs : List Expr)

inductive Expr where
  | call (head : CallHead) (args : List Arg)
  | lambda (head : LambdaHead) (body : Block)

/-- One argument of a call with the calls and lambdas in it. -/
inductive Arg where
  | mk (span : Span) (exprs : List Expr)

end

/-- A call with its arguments. -/
structure Call where
  head : CallHead
  args : List Arg

/-- A lambda with its body. -/
structure Lambda where
  head : LambdaHead
  body : Block

namespace Block

def range : Block → SourceRange
  | .mk range _ => range

def stmts : Block → List Stmt
  | .mk _ stmts => stmts

end Block

namespace Arg

def span : Arg → Span
  | .mk span _ => span

def exprs : Arg → List Expr
  | .mk _ exprs => exprs

/-- The lambda that makes up the whole argument. -/
def lambda? : Arg → Option Lambda
  | .mk span [.lambda head body] => if head.span = span then some ⟨head, body⟩ else none
  | _ => none

end Arg

/-- Callee as one text. -/
def CallHead.calleeName (c : CallHead) : String := "::".intercalate c.callee

mutual

/-- Calls in source order: a call comes before the calls in its arguments, and calls in lambda
bodies count. -/
def Block.calls : Block → List Call
  | .mk _ stmts => callsOfStmts stmts

def callsOfStmts : List Stmt → List Call
  | [] => []
  | s :: rest => Stmt.calls s ++ callsOfStmts rest

def Stmt.calls : Stmt → List Call
  | .vars _ _ _ exprs => callsOfExprs exprs
  | .block body => Block.calls body
  | .other _ exprs => callsOfExprs exprs

def callsOfExprs : List Expr → List Call
  | [] => []
  | e :: rest => Expr.calls e ++ callsOfExprs rest

def Expr.calls : Expr → List Call
  | .call head args => ⟨head, args⟩ :: callsOfArgs args
  | .lambda _ body => Block.calls body

def callsOfArgs : List Arg → List Call
  | [] => []
  | a :: rest => Arg.calls a ++ callsOfArgs rest

def Arg.calls : Arg → List Call
  | .mk _ exprs => callsOfExprs exprs

end

mutual

/-- Names declared by the statements of a block and its nested blocks, lambdas left out. -/
def Block.localNames : Block → List String
  | .mk _ stmts => localNamesOfStmts stmts

def localNamesOfStmts : List Stmt → List String
  | [] => []
  | s :: rest => Stmt.localNames s ++ localNamesOfStmts rest

def Stmt.localNames : Stmt → List String
  | .vars names _ _ _ => names.map (·.value)
  | .block body => Block.localNames body
  | .other _ _ => []

end

/-- A function declaration or definition: free, member or template. -/
structure FunctionDecl where
  /-- Without its qualifier. -/
  name : String
  qualifier : List String
  nameSpan : Span
  /-- From the first specifier to the closing brace or the last token before the semicolon. -/
  range : SourceRange
  /-- The same, from the `template` keyword. -/
  templateRange : Option SourceRange
  params : List Param
  attributes : List Attribute
  /-- `main` at file scope. -/
  isEntryPoint : Bool
  body : Option Block

namespace FunctionDecl

def qualifiedName (f : FunctionDecl) : String := "::".intercalate (f.qualifier ++ [f.name])

def isDefinition (f : FunctionDecl) : Bool := f.body.isSome

/-- Attributes of a name in written order. -/
def attributesNamed (f : FunctionDecl) (name : String) : List Attribute :=
  f.attributes.filter fun a => a.name == name

end FunctionDecl

inductive Decl where
  | directive (d : Directive)
  | function (f : FunctionDecl)
  | record (keyword : String) (name : Option String) (span : Span) (members : List Decl)
  /-- A namespace. -/
  | scope (name : Option String) (span : Span) (decls : List Decl)
  /-- `extern "C"` with braces or before one declaration. -/
  | linkage (language : String) (span : Span) (decls : List Decl)
  | usingNamespace (path : List String) (span : Span)
  /-- Anything that is never edited. -/
  | other (span : Span)

namespace Decl

def span : Decl → Span
  | .directive d => d.span
  | .function f => (f.templateRange.getD f.range).span
  | .record _ _ span _ | .scope _ span _ | .linkage _ span _ => span
  | .usingNamespace _ span => span
  | .other span => span

end Decl

mutual

/-- Functions in source order, members and nested scopes included. -/
def functionsOf : List Decl → List FunctionDecl
  | [] => []
  | d :: rest => Decl.functions d ++ functionsOf rest

def Decl.functions : Decl → List FunctionDecl
  | .function f => [f]
  | .record _ _ _ members => functionsOf members
  | .scope _ _ decls => functionsOf decls
  | .linkage _ _ decls => functionsOf decls
  | .directive _ | .usingNamespace _ _ | .other _ => []

end

end Offload.Source
