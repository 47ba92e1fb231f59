import Offload.Source.Declarator

/-!
# Parser state

A cursor in a token stream with the nesting depth, the variables in scope and the diagnostics so
far. Looking at the cursor is a fault when it lies past the end; moving it stops at `eof`.
-/

namespace Offload.Source

/-- Variables with their types, scopes innermost first, names newest first. -/
abbrev Locals := List (List (String × String))

structure ParseState where
  cursor : Nat
  depth : Nat
  locals : Locals
  diagnostics : List Diagnostic

def ParseState.initial : ParseState := ⟨0, 0, [], []⟩

abbrev Parse := StateT ParseState (Except Fault)

/-- Type of the innermost and newest variable of a name. -/
def Locals.type? (locals : Locals) (name : String) : Option String := locals.flatten.lookup name

namespace Parse

variable (ts : TokenStream)

def cursor : Parse Nat := return (← get).cursor

def moveTo (i : Nat) : Parse Unit := modify fun s => { s with cursor := i }

def fault (f : Fault) : Parse α := throw f

def peek : Parse Lexeme := do return (← ts.token (← cursor)).lexeme

/-- The lexeme `offset` tokens ahead, clamped to the end. -/
def peekAt (offset : Nat) : Parse Lexeme := do return ts.lexeme ((← cursor) + offset)

/-- Take the token at the cursor and move past it unless it is the last. -/
def advance : Parse Token := do
  let i ← cursor
  let t ← ts.token i
  if i + 1 < ts.size then moveTo (i + 1)
  return t

def at_ (l : Lexeme) : Parse Bool := do return (← peek ts) == l

def atSymbol (s : Symbol) : Parse Bool := at_ ts (.symbol s)

def atWord (w : String) : Parse Bool := at_ ts (.ident w)

def atAnyWord (ws : List String) : Parse Bool := do
  match ← peek ts with
  | .ident w => return ws.contains w
  | _ => return false

def eat (s : Symbol) : Parse Bool := do
  if ← atSymbol ts s then
    let _ ← advance ts
    return true
  return false

def report (problem : Problem) (span : Span) : Parse Unit :=
  modify fun s => { s with diagnostics := s.diagnostics ++ [⟨problem, span⟩] }

def reportHere (problem : Problem) : Parse Unit := do
  report problem (← ts.token (← cursor)).span

def maximumDepth : Nat := 256

/-- Go one level deeper; false, with a report, when that is too deep. -/
def enterNesting : Parse Bool := do
  modify fun s => { s with depth := s.depth + 1 }
  if maximumDepth < (← get).depth then
    reportHere ts .nestingTooDeep
    return false
  return true

def exitNesting : Parse Unit := modify fun s => { s with depth := s.depth - 1 }

def pushScope (vars : List (String × String)) : Parse Unit :=
  modify fun s => { s with locals := vars :: s.locals }

def popScope : Parse Unit := modify fun s => { s with locals := s.locals.drop 1 }

/-- Add a variable to the innermost scope, if there is one. -/
def declare (name type : String) : Parse Unit :=
  modify fun s =>
    match s.locals with
    | [] => s
    | scope :: outer => { s with locals := ((name, type) :: scope) :: outer }

/-- Identifiers separated by `::` from the cursor on. -/
def path : Nat → Parse (List String)
  | 0 => return []
  | fuel + 1 => do
    match ← peek ts with
    | .ident part =>
      let _ ← advance ts
      if ← eat ts .colonColon then
        return part :: (← path fuel)
      return [part]
    | _ => return []

/-- Move to the next `;` outside brackets, or to a `}` or the end. -/
def findSemicolon : Nat → Parse Unit
  | 0 => return ()
  | fuel + 1 => do
    let l ← peek ts
    if l == .symbol .semicolon || l == .eof || l == .symbol .closeBrace then
      return ()
    if l.opens then
      moveTo (ts.matching (← cursor))
    let _ ← advance ts
    findSemicolon fuel

/-- Move past the next `;` and give the index of the last token before it. -/
def skipToSemicolon : Parse Nat := do
  let start ← cursor
  findSemicolon ts (ts.size + 1)
  let last := max ((← cursor) - 1) start
  let _ ← eat ts .semicolon
  return last

/-- Named parameters as variables, newest first. -/
def paramVars (params : List Param) : List (String × String) :=
  (params.filterMap fun p => p.name.map (·, p.type)).reverse

end Parse

end Offload.Source
