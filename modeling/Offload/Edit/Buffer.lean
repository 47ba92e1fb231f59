import Offload.Document

/-!
# Edit buffers

Edits are recorded against the offsets of an immutable document and applied together. Removals and
replacements never overlap: a new one inside an old one is dropped, a new one that covers old ones
takes their place, and any other overlap is refused. Insertions strictly inside a removed or
replaced range are dropped; insertions at one point keep the order in which they were made.
-/

namespace Offload

inductive EditError where
  | overlap (existing new : Span)
  | outOfBounds (span : Span) (length : Nat)
deriving DecidableEq, Repr

def EditError.message : EditError → String
  | .overlap existing new =>
    "edit at " ++ new.describe ++ " partially overlaps an existing edit at " ++ existing.describe
  | .outOfBounds span length =>
    "edit at " ++ span.describe ++ " lies outside the document (" ++ toString length ++ " bytes)"

inductive EditKind where
  | remove
  | replace (text : String)
  | insert (text : String)
deriving DecidableEq, Repr

structure Edit where
  span : Span
  kind : EditKind
deriving DecidableEq, Repr

namespace Edit

def isInsertion (e : Edit) : Bool :=
  match e.kind with
  | .insert _ => true
  | _ => false

/-- What stands in the result in place of the edit's span. -/
def text (e : Edit) : List UInt8 :=
  match e.kind with
  | .remove => []
  | .replace s | .insert s => Text.bytes s

/-- Application order: by offset, and insertions before a range that starts at the same offset. -/
def precedes (a b : Edit) : Bool :=
  a.span.start < b.span.start ||
    (a.span.start == b.span.start && (a.isInsertion || !b.isInsertion))

end Edit

/-- The edits in the order in which they were made. -/
structure EditBuffer where
  document : Document
  edits : List Edit
deriving DecidableEq, Repr

namespace EditBuffer

def ofDocument (doc : Document) : EditBuffer := ⟨doc, []⟩

/-- How a new range relates to the edits already made. -/
inductive Placement where
  /-- Some range covers it already. -/
  | absorbed
  /-- It shares some, but not all, of its bytes with an existing range. -/
  | conflict (existing : Span)
  /-- It is added beside the edits that it does not replace. -/
  | fits (survivors : List Edit)

def Placement.keep (e : Edit) : Placement → Placement
  | .fits survivors => .fits (e :: survivors)
  | p => p

def place (span : Span) : List Edit → Placement
  | [] => .fits []
  | e :: rest =>
    if e.isInsertion then
      if span.start < e.span.start && e.span.start < span.stop then place span rest
      else (place span rest).keep e
    else if e.span.covers span then .absorbed
    else if span.covers e.span then place span rest
    else if span.overlaps e.span then .conflict e.span
    else (place span rest).keep e

def checkBounds (b : EditBuffer) (span : Span) : Except EditError Unit :=
  if b.document.length < span.stop then .error (.outOfBounds span b.document.length) else .ok ()

/-- Record a removal or replacement. Removing nothing records nothing. -/
def addRange (b : EditBuffer) (span : Span) (kind : EditKind) : Except EditError EditBuffer := do
  b.checkBounds span
  if span.isEmpty && kind == .remove then
    return b
  match place span b.edits with
  | .absorbed => return b
  | .conflict existing => throw (.overlap existing span)
  | .fits survivors => return { b with edits := survivors ++ [⟨span, kind⟩] }

def remove (b : EditBuffer) (span : Span) : Except EditError EditBuffer := b.addRange span .remove

def replace (b : EditBuffer) (span : Span) (text : String) : Except EditError EditBuffer :=
  b.addRange span (.replace text)

/-- Insert at an offset, after anything already inserted there. -/
def insertAfter (b : EditBuffer) (offset : Nat) (text : String) : Except EditError EditBuffer := do
  b.checkBounds (.point offset)
  let hidden := b.edits.any fun e =>
    !e.isInsertion && e.span.start < offset && offset < e.span.stop
  if hidden then
    return b
  return { b with edits := b.edits ++ [⟨.point offset, .insert text⟩] }

/-- Some removed or replaced range covers the span. -/
def isRemoved (b : EditBuffer) (span : Span) : Bool :=
  b.edits.any fun e => !e.isInsertion && e.span.covers span

/-- The document from `cursor` on, with edits that are given in application order. -/
def applyFrom (doc : Document) : Nat → List Edit → Except Fault (List UInt8)
  | cursor, [] => doc.slice ⟨cursor, doc.length⟩
  | cursor, e :: rest => do
    let before ← doc.slice ⟨cursor, e.span.start⟩
    let after ← applyFrom doc e.span.stop rest
    return before ++ e.text ++ after

def resultBytes (b : EditBuffer) : Except Fault (List UInt8) :=
  applyFrom b.document 0 (b.edits.mergeSort Edit.precedes)

/-- The edited text. -/
def result (b : EditBuffer) : Except Fault String := b.resultBytes.map Text.ofBytes

end EditBuffer

end Offload
