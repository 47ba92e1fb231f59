import Offload.Edit.Buffer
import Offload.Edit.Terminator

/-!
# Two outputs of one document

The host and the device output are edited independently. Removals and replacements take the
terminator of their range along.
-/

namespace Offload

inductive Side where
  | host
  | device
deriving DecidableEq, Repr

/-- Why an edit of a document fails. -/
inductive EditFailure where
  | fault (f : Fault)
  | refused (e : EditError)
deriving DecidableEq, Repr

structure DualBuffer where
  host : EditBuffer
  device : EditBuffer
deriving DecidableEq, Repr

namespace DualBuffer

def ofDocument (doc : Document) : DualBuffer := ⟨.ofDocument doc, .ofDocument doc⟩

def document (b : DualBuffer) : Document := b.host.document

def side (b : DualBuffer) : Side → EditBuffer
  | .host => b.host
  | .device => b.device

def set (b : DualBuffer) (side : Side) (buffer : EditBuffer) : DualBuffer :=
  match side with
  | .host => { b with host := buffer }
  | .device => { b with device := buffer }

/-- Edit one side. -/
def onSide (b : DualBuffer) (side : Side) (edit : EditBuffer → Except EditError EditBuffer) :
    Except EditFailure DualBuffer :=
  match edit (b.side side) with
  | .ok buffer => .ok (b.set side buffer)
  | .error e => .error (.refused e)

/-- The span to edit for a range. -/
def target (b : DualBuffer) (range : SourceRange) : Except EditFailure Span :=
  match withTerminator b.document range with
  | .ok span => .ok span
  | .error f => .error (.fault f)

/-- Remove a range, and tell the span removed. -/
def remove (b : DualBuffer) (side : Side) (range : SourceRange) :
    Except EditFailure (Span × DualBuffer) := do
  let span ← b.target range
  let b ← b.onSide side (·.remove span)
  return (span, b)

/-- Replace a range, and tell the span replaced. -/
def replace (b : DualBuffer) (side : Side) (range : SourceRange) (text : String) :
    Except EditFailure (Span × DualBuffer) := do
  let span ← b.target range
  let b ← b.onSide side (·.replace span text)
  return (span, b)

def insertAfter (b : DualBuffer) (side : Side) (offset : Nat) (text : String) :
    Except EditFailure DualBuffer :=
  b.onSide side (·.insertAfter offset text)

def append (b : DualBuffer) (side : Side) (text : String) : Except EditFailure DualBuffer :=
  b.insertAfter side b.document.length text

end DualBuffer

end Offload
