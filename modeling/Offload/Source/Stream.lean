import Offload.Source.Syntax

/-!
# Token streams

A preprocessed token sequence that ends in `eof`, addressed by index. Looking at a lexeme clamps
the index to the last token; taking a token, a span or a slice does not, and is a fault past the
end. Bracket matching runs to the end of the stream when a bracket does not close.
-/

namespace Offload.Source

structure TokenStream where
  tokens : Array Token

namespace TokenStream

variable (ts : TokenStream)

def size : Nat := ts.tokens.size

/-- The lexeme at an index, the last one for any index past the end. -/
def lexeme (i : Nat) : Lexeme :=
  match ts.tokens[min i (ts.size - 1)]? with
  | some t => t.lexeme
  | none => .eof

/-- The index is that of the last token or beyond it. -/
def atEnd (i : Nat) : Bool := ts.size ≤ i + 1

def token (i : Nat) : Except Fault Token :=
  match ts.tokens[i]? with
  | some t => .ok t
  | none => .error (.token i)

/-- From the start of one token to the end of another. -/
def spanBetween (first last : Nat) : Except Fault Span := do
  let a ← ts.token first
  let b ← ts.token last
  Span.between a.span.start b.span.stop

def rangeBetween (first last : Nat) : Except Fault SourceRange := do
  let span ← ts.spanBetween first last
  let b ← ts.token last
  return ⟨span, b.position⟩

def slice (start stop : Nat) : Except Fault (List Token) :=
  if start ≤ stop ∧ stop ≤ ts.size then .ok ((ts.tokens.toList.drop start).take (stop - start))
  else .error (.token stop)

def renderSlice (start stop : Nat) : Except Fault String := do
  return render (← ts.slice start stop)

/-- Index of the bracket that closes the nesting `depth`, counted from `i` on. -/
def matchingFrom : Nat → Nat → Nat → Nat
  | 0, _, i => i
  | fuel + 1, depth, i =>
    if ts.atEnd i then i
    else if (ts.lexeme i).opens then matchingFrom fuel (depth + 1) (i + 1)
    else if (ts.lexeme i).closes then
      if depth ≤ 1 then i else matchingFrom fuel (depth - 1) (i + 1)
    else matchingFrom fuel depth (i + 1)

/-- Index of the bracket that closes the one at `i`, or of `eof`. Kinds of brackets are not told
apart. -/
def matching (i : Nat) : Nat := ts.matchingFrom ts.size 0 i

/-- Index of the `>` that closes `depth` angle brackets before `limit`. -/
def matchingAngleFrom (limit : Nat) : Nat → Nat → Nat → Option Nat
  | 0, _, _ => none
  | fuel + 1, depth, i =>
    if i < limit && !ts.atEnd i then
      match ts.lexeme i with
      | .symbol .less => matchingAngleFrom limit fuel (depth + 1) (i + 1)
      | .symbol .greater =>
        if depth ≤ 1 then some i else matchingAngleFrom limit fuel (depth - 1) (i + 1)
      | .punct ">>" =>
        if depth ≤ 2 then (if depth = 2 then some i else none)
        else matchingAngleFrom limit fuel (depth - 2) (i + 1)
      | .symbol .openParen | .symbol .openBracket =>
        matchingAngleFrom limit fuel depth (ts.matching i + 1)
      | .symbol .semicolon | .symbol .openBrace | .symbol .closeBrace => none
      | _ => matchingAngleFrom limit fuel depth (i + 1)
    else none

/-- Index of the `>` that closes the `<` at `i`, if what stands between looks like template
arguments. -/
def matchingAngle (i limit : Nat) : Option Nat := ts.matchingAngleFrom limit ts.size 0 i

/-- A `<` after an identifier may open template arguments. -/
def opensAngle (start i : Nat) : Bool :=
  ts.lexeme i == .symbol .less && start < i && (ts.lexeme (i - 1)).isIdent

/-- The groups of `[start, stop)` from the one that begins at `group`. -/
def splitFrom (start stop : Nat) : Nat → Nat → Nat → List (Nat × Nat)
  | 0, group, _ => [(group, stop)]
  | fuel + 1, group, i =>
    if i < stop then
      if (ts.lexeme i).opens then splitFrom start stop fuel group (min (ts.matching i) stop + 1)
      else if ts.opensAngle start i then
        splitFrom start stop fuel group ((ts.matchingAngle i stop).getD i + 1)
      else if ts.lexeme i == .symbol .comma then
        (group, i) :: splitFrom start stop fuel (i + 1) (i + 1)
      else splitFrom start stop fuel group (i + 1)
    else [(group, stop)]

/-- Split `[start, stop)` at the commas that stand in no bracket. -/
def splitTopLevel (start stop : Nat) : List (Nat × Nat) :=
  if start < stop then ts.splitFrom start stop (stop - start + 1) start start else []

/-- The groups that hold at least one token. -/
def groups (start stop : Nat) : List (Nat × Nat) :=
  (ts.splitTopLevel start stop).filter fun g => g.1 < g.2

/-- First index of `[start, stop)` whose lexeme satisfies `p`. -/
def find? (start stop : Nat) (p : Lexeme → Bool) : Option Nat :=
  (List.range' start (stop - start)).find? fun i => p (ts.lexeme i)

end TokenStream

end Offload.Source
