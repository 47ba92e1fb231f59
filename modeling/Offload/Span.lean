import Offload.Fault

/-!
# Spans

Half-open byte ranges of the main file, and what is remembered about macro expansion at their end.
-/

namespace Offload

structure Span where
  start : Nat
  stop : Nat
deriving DecidableEq, Repr, Inhabited

namespace Span

/-- The span from `start` to `stop`, which must not be reversed. -/
def between (start stop : Nat) : Except Fault Span :=
  if start ≤ stop then .ok ⟨start, stop⟩ else .error (.reversed start stop)

def point (offset : Nat) : Span := ⟨offset, offset⟩

/-- The least span that covers both. -/
def merge (s t : Span) : Span := ⟨min s.start t.start, max s.stop t.stop⟩

def length (s : Span) : Nat := s.stop - s.start

def isEmpty (s : Span) : Bool := s.start == s.stop

/-- `t` lies entirely inside `s`. -/
def covers (s t : Span) : Bool := s.start ≤ t.start && t.stop ≤ s.stop

/-- The two spans share at least one byte. -/
def overlaps (s t : Span) : Bool := s.start < t.stop && t.start < s.stop

/-- Form in which messages name a span. -/
def describe (s : Span) : String :=
  "Span \x7b start: " ++ toString s.start ++ ", end: " ++ toString s.stop ++ " \x7d"

end Span

/-- Where a token comes from. Expanded tokens stand at the macro's use site. -/
inductive MacroPosition where
  /-- Spelled in the file. -/
  | file
  /-- The last token of an expansion. -/
  | expansionEnd
  /-- Any other token of an expansion. -/
  | expansion
deriving DecidableEq, Repr, Inhabited

/-- A span with the macro position of its last token. -/
structure SourceRange where
  span : Span
  last : MacroPosition
deriving DecidableEq, Repr, Inhabited

def SourceRange.file (span : Span) : SourceRange := ⟨span, .file⟩

/-- A value and where it was written. -/
structure Located (α : Type) where
  value : α
  span : Span
deriving DecidableEq, Repr

end Offload
