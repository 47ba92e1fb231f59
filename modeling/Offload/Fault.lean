/-!
# Faults

Positions and token indices are computed before it is known whether they exist. An access that
turns out to lie outside its range is a `Fault`: the whole run stops there without an answer.
-/

namespace Offload

inductive Fault where
  /-- A cut of a text outside its bytes or inside a character. -/
  | text (start stop : Nat)
  /-- A token index past the last token. -/
  | token (index : Nat)
  /-- A span whose end lies before its start. -/
  | reversed (start stop : Nat)
  /-- A recursion that outran its bound. -/
  | exhausted
deriving DecidableEq, Repr

end Offload
