import Offload.Source.Declaration
import Offload.Split.Dispatch
import Offload.Split.Restriction

/-!
# Splitting a document

One walk over the declarations edits both outputs. The device loses entry points, host-only
functions, functions that dispatch, and the include of the dispatch header; the host loses
device-only functions and the bodies of dispatched closures.
-/

namespace Offload.Split

open Offload.Source

structure Output where
  host : String
  device : String
  diagnostics : List Diagnostic
  /-- One entry for each kernel, in source order. -/
  kernels : List KernelHandle

def Output.hasErrors (o : Output) : Bool := o.diagnostics.any Diagnostic.isError

/-- The part of a path after its last slash or backslash. -/
def lastComponent (path : String) : String :=
  String.ofList (path.toList.reverse.takeWhile fun c => c != '/' && c != '\\').reverse

variable (settings : Settings)

/-- The call is one of the dispatch function, written in full or after a using directive. -/
def isDispatch (usings : List (List String)) (call : Call) : Bool :=
  !call.head.isMember &&
    (call.head.callee == settings.dispatchPath ||
      usings.any fun ns => ns ++ call.head.callee == settings.dispatchPath)

/-- Remove a function together with its template head. -/
def removeFunction (side : Side) (f : FunctionDecl) : Run Unit := do
  Run.remove side f.range
  match f.templateRange with
  | some range => Run.remove side range
  | none => return ()

def visitDispatch (f : FunctionDecl) (call : Call) : Run Unit := do
  removeFunction .device f
  match ← synthesize settings call with
  | none => return ()
  | some kernel =>
    if (← get).kernels.isEmpty then
      Run.append .device forwardDeclarations
    let handle ← apply settings call kernel
    modify fun s => { s with kernels := s.kernels ++ [handle] }

def visitFunction (f : FunctionDecl) : Run Unit := do
  if f.isEntryPoint then
    Run.remove .device f.range
  else
    let (restriction, found) := restriction f settings.marker
    Run.report found
    if restriction.hostOnly then
      removeFunction .device f
    else if restriction.deviceOnly then
      removeFunction .host f
  match f.body with
  | none => return ()
  | some body =>
    let usings := (← get).usings
    (body.calls.filter (isDispatch settings usings)).forM (visitDispatch settings f)

def visitDirective (d : Directive) : Run Unit :=
  match d.kind with
  | .include_ file _ span =>
    if lastComponent file == settings.dispatchHeader then Run.remove .device (.file span)
    else return ()
  | _ => return ()

mutual

def visitDecls (fileScope : Bool) : List Decl → Run Unit
  | [] => return ()
  | d :: rest => do
    visitDecl fileScope d
    visitDecls fileScope rest

/-- Using directives count at file scope only; a linkage specification does not leave it. -/
def visitDecl (fileScope : Bool) : Decl → Run Unit
  | .directive d => visitDirective settings d
  | .function f => visitFunction settings f
  | .record _ _ _ members => visitDecls false members
  | .scope _ _ decls => visitDecls false decls
  | .linkage _ _ decls => visitDecls fileScope decls
  | .usingNamespace path _ =>
    if fileScope then modify fun s => { s with usings := s.usings ++ [path] } else return ()
  | .other _ => return ()

end

/-- The two outputs of a parsed document, with the diagnostics of the walk. -/
def splitDecls (doc : Document) (decls : List Decl) : Except SplitError Output :=
  match (visitDecls settings true decls).run.run (.ofDocument doc) with
  | (.error e, _) => .error e
  | (.ok (), s) =>
    match s.buffers.host.result, s.buffers.device.result with
    | .ok host, .ok device => .ok ⟨host, device, s.diagnostics, s.kernels⟩
    | .error f, _ | _, .error f => .error (.fault f)

/-- Split a document; diagnostics of the parse come first. -/
def splitDocument (doc : Document) : Except SplitError Output :=
  match parseDocument doc with
  | .error f => .error (.fault f)
  | .ok parsed =>
    match splitDecls settings doc parsed.decls with
    | .error e => .error e
    | .ok output => .ok { output with diagnostics := parsed.diagnostics ++ output.diagnostics }

end Offload.Split
