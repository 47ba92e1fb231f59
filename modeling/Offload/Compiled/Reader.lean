import Offload.Compiled.Module
import Offload.Compiled.Tokenize

/-!
# Reader state

The tokens that are left, the line of the last token taken, and the module read so far. Taking a
token at the end of the text takes nothing.
-/

namespace Offload.Compiled

structure Reader where
  rest : List Token
  finish : Place
  /-- Line of the token taken last; zero before the first. -/
  lastLine : Nat
  module : Module
  /-- Names made up for struct types so far. -/
  literals : Nat

def Reader.ofText (name : String) (text : TokenText) : Reader :=
  ⟨text.tokens, text.finish, 0, { name := name }, 0⟩

namespace Reader

def peekAt (r : Reader) (n : Nat) : Tok := (r.rest[n]?.map Token.tok).getD .eof

def peek (r : Reader) : Tok := r.peekAt 0

/-- Where the next token stands. -/
def place (r : Reader) : Place := (r.rest.head?.map Token.place).getD r.finish

/-- The next token stands on another line than the one before it. -/
def atLineStart (r : Reader) : Bool := r.lastLine != 0 && r.place.line != r.lastLine

def advance (r : Reader) : Reader :=
  match r.rest with
  | [] => r
  | t :: rest => { r with rest := rest, lastLine := t.place.line }

def advanceBy : Nat → Reader → Reader
  | 0, r => r
  | n + 1, r => advanceBy n r.advance

/-- Number of tokens up to the mark that closes `depth` open parentheses, that one included. -/
def groupLength? : Nat → List Token → Option Nat
  | _, [] => none
  | depth, t :: rest =>
    match t.tok, depth with
    | .mark ')', 0 | .mark ')', 1 => some 1
    | .mark ')', depth + 1 => (groupLength? depth rest).map (· + 1)
    | .mark '(', depth => (groupLength? (depth + 1) rest).map (· + 1)
    | _, depth => (groupLength? depth rest).map (· + 1)

/-- Number of tokens from the next one to the end of its line. -/
def lineLength : List Token → Nat
  | [] => 0
  | t :: rest => 1 + (rest.takeWhile fun u => u.place.line == t.place.line).length

end Reader

abbrev Read := StateT Reader (Except ReadError)

namespace Read

def peek : Read Tok := return (← get).peek

def peekAt (n : Nat) : Read Tok := return (← get).peekAt n

def advance : Read Unit := modify Reader.advance

def advanceBy (n : Nat) : Read Unit := modify (Reader.advanceBy n)

/-- Take the next token. -/
def next : Read Tok := do
  let t ← peek
  advance
  return t

def failAt (place : Place) (flaw : ReadFlaw) : Read α := throw ⟨place, flaw⟩

/-- Fail at the next token. -/
def fail (flaw : ReadFlaw) : Read α := do failAt (← get).place flaw

def unexpected (expected : Expected) : Read α := do fail (.unexpected expected (← peek))

def atMark (c : Char) : Read Bool := return (← peek) == .mark c

def atWord (w : String) : Read Bool := return (← peek) == .word w

def atWordIn (ws : List String) : Read Bool := do
  match ← peek with
  | .word w => return ws.contains w
  | _ => return false

/-- Take the next token if it is the given one. -/
def eat (t : Tok) : Read Bool := do
  if (← peek) == t then
    advance
    return true
  return false

def eatMark (c : Char) : Read Bool := eat (.mark c)

def eatWord (w : String) : Read Bool := eat (.word w)

def expectMark (c : Char) : Read Unit := do
  if !(← eatMark c) then unexpected (.mark c)

def expectWord (w : String) : Read Unit := do
  if !(← eatWord w) then unexpected (.word w)

def word : Read String := do
  match ← peek with
  | .word w => advance; return w
  | _ => unexpected .keyword

def localValue : Read String := do
  match ← peek with
  | .value name => advance; return name
  | _ => unexpected .localValue

def globalName : Read String := do
  match ← peek with
  | .symbol name => advance; return name
  | _ => unexpected .globalName

def string : Read String := do
  match ← peek with
  | .str s => advance; return s
  | _ => unexpected .string

def atLineStart : Read Bool := return (← get).atLineStart

/-- Take all tokens up to the end of the line of the next one. -/
def skipLine : Read Unit := modify fun r => r.advanceBy (Reader.lineLength r.rest)

/-- Take a balanced group in parentheses. -/
def skipGroup : Read Unit := do
  expectMark '('
  let r ← get
  match Reader.groupLength? 1 r.rest with
  | some n => advanceBy n
  | none =>
    advanceBy r.rest.length
    unexpected (.mark ')')

/-- Repeat a step until it says that it is done. There are never more rounds than tokens, as each
takes one. -/
def repeatWhile (step : Read Bool) : Read Unit := do
  rounds ((← get).rest.length + 1)
where
  rounds : Nat → Read Unit
    | 0 => fail .stalled
    | fuel + 1 => do
      if ← step then rounds fuel else return ()

/-- Items separated by commas up to a closing mark, which is taken. -/
def listUntil (close : Char) (item : Read α) : Read (List α) := do
  items ((← get).rest.length + 1)
where
  items : Nat → Read (List α)
    | 0 => fail .stalled
    | fuel + 1 => do
      let a ← item
      if ← eatMark close then return [a]
      expectMark ','
      return a :: (← items fuel)

/-- Attributes of values that carry no meaning here. -/
def valueAttributes : List String :=
  ["signext", "zeroext", "noalias", "nocapture", "readonly", "readnone", "writeonly", "nonnull",
    "inreg", "noundef", "returned", "immarg", "nofree", "nest", "writable", "dead_on_unwind",
    "allocalign", "allocptr", "swiftself", "swifterror", "swiftasync", "byval", "sret"]

/-- Attributes written with a group in parentheses. -/
def groupAttributes : List String :=
  ["dereferenceable", "dereferenceable_or_null", "byval", "byref", "sret", "inalloca",
    "preallocated", "elementtype", "captures", "range", "nofpclass", "initializes", "alignstack",
    "memory"]

/-- Words on linkage, visibility, storage and calling convention. -/
def declarationWords : List String :=
  ["dso_local", "dso_preemptable", "hidden", "protected", "default", "unnamed_addr",
    "local_unnamed_addr", "linkonce", "linkonce_odr", "weak", "weak_odr", "common",
    "available_externally", "appending", "dllimport", "dllexport", "externally_initialized",
    "ccc", "fastcc", "coldcc", "spir_kernel", "spir_func", "thread_local"]

/-- Wrapping and fast-math flags. -/
def instructionFlags : List String :=
  ["nsw", "nuw", "exact", "disjoint", "nneg", "samesign", "fast", "nnan", "ninf", "nsz", "arcp",
    "contract", "afn", "reassoc"]

def trailerWords : List String := ["align", "section", "comdat", "partition", "code_model"]

/-- Take the next token if it is one of the words. -/
def eatWordIn (ws : List String) : Read Bool := do
  if ← atWordIn ws then
    advance
    return true
  return false

def skipValueAttributes : Read Unit := repeatWhile do
  if (← atWordIn groupAttributes) && (← peekAt 1) == .mark '(' then
    advance
    skipGroup
    return true
  if ← eatWordIn valueAttributes then return true
  if ← atWord "align" then
    if let .int _ ← peekAt 1 then
      advanceBy 2
      return true
  return false

def skipFlags : Read Unit := repeatWhile (eatWordIn instructionFlags)

def startsTrailer : Tok → Bool
  | .word w => trailerWords.contains w
  | .mark '!' => true
  | _ => false

/-- A token that a trailer cannot contain. -/
def endsTrailer : Tok → Bool
  | .mark ',' | .mark '\x7d' | .label _ | .eof => true
  | _ => false

/-- Number of tokens of the trailer that starts with a comma on the given line. -/
def trailerLength (line : Nat) (rest : List Token) : Nat :=
  (rest.takeWhile fun t => t.place.line == line && !endsTrailer t.tok).length

/-- Alignment, section, comdat and metadata at the end of an instruction or global. -/
def skipTrailers : Read Unit := repeatWhile do
  if (← atMark ',') && startsTrailer (← peekAt 1) then
    advance
    let r ← get
    advanceBy (trailerLength r.lastLine r.rest)
    return true
  return false

/-- Groups of attributes after the arguments of a call. -/
def skipCallAttributes : Read Unit := repeatWhile do
  if ← eatMark '#' then
    advance
    return true
  return false

end Read

end Offload.Compiled
