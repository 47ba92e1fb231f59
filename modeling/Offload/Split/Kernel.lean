import Offload.Hash.Blake3
import Offload.Source.Syntax

/-!
# Kernels

The closure of a dispatch call becomes two device functions, one with the closure's body and one
that maps it over a buffer. On the host its body is replaced by a stub that names the device file
and the kernel.
-/

namespace Offload.Split

open Offload.Source

/-- Accessors declared once, ahead of the first kernel. -/
def forwardDeclarations : String :=
  "extern \"C\" long long get_global_id(int);\nextern \"C\" int get_global_size(int);\n\n\n"

structure ClosureParam where
  name : String
  type : String
deriving DecidableEq, Repr

/-- What a kernel needs to know about a lambda. -/
structure Closure where
  byRef : List Capture
  byValue : List Capture
  params : List ClosureParam
  /-- The body with its braces. -/
  body : SourceRange
deriving DecidableEq, Repr

namespace Closure

/-- Captures that have no description, as what they are reported to be. -/
def unsupported? (c : Capture) : Option UnsupportedCapture :=
  match c.kind with
  | .byRef | .byCopy => none
  | .this => some .this
  | .starThis => some .starThis
  | .init => some (.init c.name)

/-- Parameters without a name are numbered. -/
def paramsFrom : Nat → List Param → List ClosureParam
  | _, [] => []
  | i, p :: rest => ⟨p.name.getD ("_arg" ++ toString i), p.type⟩ :: paramsFrom (i + 1) rest

/-- Describe a lambda, or report the first capture that cannot be. -/
def ofLambda (l : Lambda) : Except Diagnostic Closure :=
  let problem := l.head.captures.findSome? fun c =>
    (unsupported? c).map fun u => (⟨.unsupportedCapture u, c.span⟩ : Diagnostic)
  match problem with
  | some d => .error d
  | none => .ok {
      byRef := l.head.captures.filter fun c => c.kind == .byRef
      byValue := l.head.captures.filter fun c => c.kind == .byCopy
      params := paramsFrom 0 l.head.params
      body := l.body.range }

def captures (c : Closure) : List Capture := c.byRef ++ c.byValue

end Closure

/-- What a kernel's hash is taken of: the capture lists and parameters, each entry closed by a
NUL, then the body. -/
def hashInput (byRef byValue : List String) (params : List ClosureParam) (body : List UInt8) :
    List UInt8 :=
  (byRef.flatMap fun n => Text.bytes "&" ++ Text.bytes n ++ [0]) ++
    (byValue.flatMap fun n => Text.bytes "=" ++ Text.bytes n ++ [0]) ++
    (params.flatMap fun p => Text.bytes p.type ++ Text.bytes " " ++ Text.bytes p.name ++ [0]) ++
    body

/-- `<number>_<first eight hexadecimal digits of the hash>`. -/
def kernelSuffix (number : Nat) (input : List UInt8) : String :=
  toString number ++ "_" ++ String.ofList ((Blake3.hexDigest input).toList.take 8)

def kernelName (suffix : String) : String := "_Kernel_" ++ suffix

def lambdaName (suffix : String) : String := "_Lambda_" ++ suffix

/-- Strip one trailing qualifier that stands alone or follows a space or a star. -/
def stripQualifier? (cs : List Char) : Option (List Char) :=
  ["const", "volatile"].findSome? fun q =>
    let word := q.toList
    if word.isSuffixOf cs then
      let rest := cs.take (cs.length - word.length)
      match rest.getLast? with
      | none => some rest
      | some c => if c == ' ' || c == '*' then some rest else none
    else none

def stripQualifiers : Nat → List Char → List Char
  | 0, cs => cs
  | fuel + 1, cs =>
    match stripQualifier? cs with
    | some rest => stripQualifiers fuel (Text.trimEnd rest)
    | none => cs

/-- The type without its reference and without `const` and `volatile` at the top: `const int&` has
element type `int`, and `const float*` stays as it is. -/
def elementType (type : String) : String :=
  let cs := Text.trimEnd (Text.dropEndWhile (· == '&') (Text.trim type.toList))
  let cs := stripQualifiers (cs.length + 1) cs
  if cs.contains '*' then String.ofList cs
  else
    let words := (Text.words cs).map String.ofList
    " ".intercalate (words.filter fun w => w != "const" && w != "volatile")

/-- The two device functions of a closure. -/
def deviceText (suffix : String) (param : ClosureParam) (body : String) : String :=
  let element := elementType param.type
  element ++ " " ++ lambdaName suffix ++ "(" ++ param.type ++ " " ++ param.name ++ ") " ++ body ++
    "\n\nextern \"C\" void " ++ kernelName suffix ++ "(" ++ element ++ "* in, " ++ element ++
    "* out) \x7b unsigned idx = get_global_id(0); out[idx] = " ++ lambdaName suffix ++
    "(in[idx]); \x7d\n"

/-- What stands on the host in place of a closure's body. -/
def hostStub (file suffix : String) : String :=
  "\x7b return std::pair<std::string,std::string> ( \"" ++ file ++ "\" , \"" ++ kernelName suffix ++
    "\" ); \x7d"

/-- The file and kernel that a stub returns, and the call it was made for. -/
structure KernelHandle where
  file : String
  kernel : String
  call : Span
deriving DecidableEq, Repr

end Offload.Split
