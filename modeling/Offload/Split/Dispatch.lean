import Offload.Edit.Dual
import Offload.Split.Kernel
import Offload.Split.Settings

/-!
# Dispatch calls

A dispatch call with the right number of arguments whose last argument is a lambda with one
parameter is turned into a kernel. A call of another shape ends the run; a last argument that is no
lambda, or a capture that has no description, is only reported.
-/

namespace Offload.Split

open Offload.Source

inductive DispatchFlaw where
  | argumentCount (expected found : Nat)
  | noClosure
  | parameterCount (found : Nat)
deriving DecidableEq, Repr

def DispatchFlaw.reason : DispatchFlaw → String
  | .argumentCount expected found =>
    "expected " ++ toString expected ++ " arguments, found " ++ toString found
  | .noClosure => "no closure argument"
  | .parameterCount found =>
    "the closure must take exactly one parameter, found " ++ toString found

inductive SplitError where
  | unsupportedDispatch (location : String) (flaw : DispatchFlaw)
  | edit (e : EditError)
  | fault (f : Fault)
deriving DecidableEq, Repr

def SplitError.message : SplitError → String
  | .unsupportedDispatch location flaw => location ++ ": unsupported dispatch call: " ++ flaw.reason
  | .edit e => "inconsistent edits: " ++ e.message
  | .fault _ => "internal fault, aborting"

def SplitError.ofEdit : EditFailure → SplitError
  | .fault f => .fault f
  | .refused e => .edit e

/-- A run in progress. -/
structure State where
  buffers : DualBuffer
  /-- Kernels named so far. -/
  counter : Nat
  /-- Namespaces named by using directives at file scope so far. -/
  usings : List (List String)
  diagnostics : List Diagnostic
  kernels : List KernelHandle

def State.ofDocument (doc : Document) : State := ⟨.ofDocument doc, 0, [], [], []⟩

/-- Steps of a run. What a failing step has done before it failed stays done. -/
abbrev Run := ExceptT SplitError (StateM State)

namespace Run

def report (ds : List Diagnostic) : Run Unit :=
  modify fun s => { s with diagnostics := s.diagnostics ++ ds }

def edit (change : DualBuffer → Except EditFailure DualBuffer) : Run Unit := do
  match change (← get).buffers with
  | .ok buffers => modify fun s => { s with buffers := buffers }
  | .error e => throw (.ofEdit e)

def remove (side : Side) (range : SourceRange) : Run Unit :=
  edit fun b => (b.remove side range).map (·.2)

def replace (side : Side) (range : SourceRange) (text : String) : Run Unit :=
  edit fun b => (b.replace side range text).map (·.2)

def append (side : Side) (text : String) : Run Unit := edit fun b => b.append side text

def document : Run Document := return (← get).buffers.document

/-- The next kernel number. -/
def nextNumber : Run Nat := do
  modify fun s => { s with counter := s.counter + 1 }
  return (← get).counter

end Run

/-- A kernel ready to be written into both outputs. -/
structure Kernel where
  suffix : String
  body : SourceRange
  deviceText : String
  hostStub : String

def deviceFile (settings : Settings) (doc : Document) : String := doc.name ++ settings.deviceSuffix

/-- Describe a call's closure and name its kernel; nothing if the call was reported instead. -/
def synthesize (settings : Settings) (call : Call) : Run (Option Kernel) := do
  let doc ← Run.document
  let refuse (flaw : DispatchFlaw) : Run (Option Kernel) :=
    throw (.unsupportedDispatch (doc.describe call.head.span.start) flaw)
  if call.args.length != settings.dispatchArity then
    return ← refuse (.argumentCount settings.dispatchArity call.args.length)
  match call.args.getLast? with
  | none => refuse .noClosure
  | some last =>
    match last.lambda? with
    | none =>
      Run.report [⟨.notALambda call.head.calleeName, last.span⟩]
      return none
    | some lambda =>
      match Closure.ofLambda lambda with
      | .error d =>
        Run.report [d]
        return none
      | .ok closure =>
        match closure.params with
        | [param] =>
          Run.report (closure.captures.map fun c => ⟨.capturedVariable c.name, c.span⟩)
          match doc.slice closure.body.span with
          | .error f => throw (.fault f)
          | .ok body =>
            let number ← Run.nextNumber
            let input := hashInput (closure.byRef.map (·.name)) (closure.byValue.map (·.name))
              closure.params body
            let suffix := kernelSuffix number input
            return some {
              suffix := suffix
              body := closure.body
              deviceText := Split.deviceText suffix param (Text.ofBytes body)
              hostStub := Split.hostStub (deviceFile settings doc) suffix }
        | params => refuse (.parameterCount params.length)

/-- Write a kernel: its functions at the end of the device output, its stub over the closure's body
on the host. -/
def apply (settings : Settings) (call : Call) (kernel : Kernel) : Run KernelHandle := do
  Run.append .device kernel.deviceText
  Run.replace .host kernel.body kernel.hostStub
  return ⟨deviceFile settings (← Run.document), kernelName kernel.suffix, call.head.span⟩

/-- Turn one call into a kernel. -/
def offloadCall (settings : Settings) (call : Call) : Run (Option KernelHandle) := do
  match ← synthesize settings call with
  | none => return none
  | some kernel => return some (← apply settings call kernel)

end Offload.Split
