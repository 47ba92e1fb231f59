import Offload.Span
import Offload.Text.Utf8

/-!
# Documents

A named text, immutable, with byte offsets as positions. Lines and columns count from one, columns
in bytes.
-/

namespace Offload

structure Document where
  name : String
  bytes : List UInt8
deriving DecidableEq, Repr

structure LineColumn where
  line : Nat
  column : Nat
deriving DecidableEq, Repr

namespace Document

def ofText (name text : String) : Document := ⟨name, Text.bytes text⟩

def length (doc : Document) : Nat := doc.bytes.length

def text (doc : Document) : String := Text.ofBytes doc.bytes

/-- The bytes of a span; a fault outside the text or inside a character. -/
def slice (doc : Document) (span : Span) : Except Fault (List UInt8) :=
  match Text.slice doc.bytes span.start span.stop with
  | some bs => .ok bs
  | none => .error (.text span.start span.stop)

/-- Offsets just after each newline, counted from `pos`. -/
def startsAfter : Nat → List UInt8 → List Nat
  | _, [] => []
  | pos, b :: rest =>
    if b == Ascii.newline then (pos + 1) :: startsAfter (pos + 1) rest
    else startsAfter (pos + 1) rest

/-- Offsets at which lines start. -/
def lineStarts (doc : Document) : List Nat := 0 :: startsAfter 0 doc.bytes

/-- The line is the last one that starts at or before the offset. -/
def lineColumn (doc : Document) (offset : Nat) : LineColumn :=
  let starts := doc.lineStarts.takeWhile (· ≤ offset)
  ⟨starts.length, offset - starts.getLastD 0 + 1⟩

/-- `name:line:column`. -/
def describe (doc : Document) (offset : Nat) : String :=
  let position := doc.lineColumn offset
  doc.name ++ ":" ++ toString position.line ++ ":" ++ toString position.column

end Document

end Offload
