import Offload.Source.Lexer

/-!
# Terminators

A removed declaration takes the semicolon that ends it along, with the blanks and comments between.
A range that ends inside a macro expansion, but not at its end, is left alone: the macro's use
covers more than the range.
-/

namespace Offload

/-- The semicolon that directly follows a range. -/
def semicolonAfter (doc : Document) (range : SourceRange) : Except Fault (Option Span) := do
  if range.last == .expansion || doc.length < range.span.stop then
    return none
  let step ← (Source.Scan.resume doc range.span.stop).step
  return if step.token.lexeme == .symbol .semicolon then some step.token.span else none

/-- The span to edit for a range. -/
def withTerminator (doc : Document) (range : SourceRange) : Except Fault Span := do
  match ← semicolonAfter doc range with
  | some semicolon => Span.between range.span.start semicolon.stop
  | none => return range.span

end Offload
