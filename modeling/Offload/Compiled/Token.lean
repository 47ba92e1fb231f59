import Offload.Compiled.Value
import Offload.Number.Literal
import Offload.Text.Utf8

/-!
# Tokens of module text

Names, words, labels, constants and single-character marks, with the place where each starts, and
the errors that reading a module text can end with.
-/

namespace Offload.Compiled

inductive Tok where
  /-- `%name` -/
  | value (name : String)
  /-- `@name` -/
  | symbol (name : String)
  | word (w : String)
  /-- A name or number followed by a colon. -/
  | label (name : String)
  | int (v : Int)
  | float (v : Binary64)
  /-- A floating-point constant given by its bits. -/
  | bits (v : UInt64)
  | str (s : String)
  /-- A byte string, its escapes decoded. -/
  | bytes (bs : List UInt8)
  | mark (c : Char)
  | eof
deriving DecidableEq, Repr

/-- How a token is named in an error. -/
def Tok.describe : Tok → String
  | value name => "'%" ++ name ++ "'"
  | symbol name => "'@" ++ name ++ "'"
  | word w => "'" ++ w ++ "'"
  | label name => "label '" ++ name ++ ":'"
  | int v => "'" ++ toString v ++ "'"
  | float v => "'" ++ v.positional ++ "'"
  | bits v => "'0x" ++ (String.ofList (Text.Numeral.write 16 v.toNat)).toUpper ++ "'"
  | str s => "\"" ++ s ++ "\""
  | bytes bs => "c\"" ++ Text.ofBytes bs ++ "\""
  | mark c => "'" ++ String.singleton c ++ "'"
  | eof => "end of input"

/-- A place in module text; lines and columns count from one, columns in bytes. -/
structure Place where
  line : Nat
  column : Nat
deriving DecidableEq, Repr

structure Token where
  tok : Tok
  place : Place
deriving DecidableEq, Repr

/-- What the reader was looking for. -/
inductive Expected where
  | mark (c : Char)
  | word (w : String)
  | keyword | value | globalName | localValue | string | entity | parameterName
  | functionAttribute | arrayLength | type
deriving DecidableEq, Repr

def Expected.describe : Expected → String
  | mark c => "'" ++ String.singleton c ++ "'"
  | word w => "'" ++ w ++ "'"
  | keyword => "a keyword"
  | value => "a value"
  | globalName => "a global name"
  | localValue => "a local value"
  | string => "a string"
  | entity => "a top-level entity"
  | parameterName => "a parameter name"
  | functionAttribute => "a function attribute"
  | arrayLength => "an array length"
  | type => "a type"

inductive ReadFlaw where
  | unterminatedName
  | unterminatedString
  | missingName (sigil : Char)
  | badEscape
  | emptyHex
  | hexTooLarge
  | badFloat (literal : String)
  | badInteger (literal : String)
  | strayByte (b : UInt8)
  | unexpected (expected : Expected) (found : Tok)
  | unknownTargetProperty (name : String)
  | structDefinedTwice (name : String)
  | afterTerminator (label : String)
  | noBlocks
  | unsupportedWidth (bits : Nat)
  | constantExpression (w : String)
  | caseNotInteger (v : Value)
  | unnamedResult (opcode : String)
  | unknownPredicate (opcode w : String)
  | loadFromNonPointer (t : Ty)
  | indexOnNonPointer (t : Ty)
  | cannotIndex (t : Ty) (count : Nat)
  | indirectCall
  | namedVoidCall (callee : String)
  | unsupportedInstruction (opcode : String)
  /-- A loop of the reader has run for longer than there are tokens. -/
  | stalled
deriving Repr

def ReadFlaw.message : ReadFlaw → String
  | unterminatedName => "unterminated quoted name"
  | unterminatedString => "unterminated string"
  | missingName sigil => "expected a name after '" ++ String.singleton sigil ++ "'"
  | badEscape => "bad escape in byte string"
  | emptyHex => "bad hex constant: cannot parse integer from empty string"
  | hexTooLarge => "bad hex constant: number too large to fit in target type"
  | badFloat literal => "bad float constant '" ++ literal ++ "'"
  | badInteger literal => "bad integer constant '" ++ literal ++ "'"
  | strayByte b => "unexpected character '" ++ String.singleton (Ascii.latin1 b) ++ "'"
  | unexpected expected found => "expected " ++ expected.describe ++ ", found " ++ found.describe
  | unknownTargetProperty name => "unknown target property '" ++ name ++ "'"
  | structDefinedTwice name => "struct type '%" ++ name ++ "' is defined twice"
  | afterTerminator label => "instruction after the terminator of block '" ++ label ++ "'"
  | noBlocks => "function body has no blocks"
  | unsupportedWidth bits => "unsupported integer width i" ++ toString bits
  | constantExpression w => "constant expression '" ++ w ++ "' is not supported"
  | caseNotInteger v => "switch case " ++ v.render ++ " is not an integer"
  | unnamedResult opcode => "'" ++ opcode ++ "' must name its result"
  | unknownPredicate opcode w => "unknown " ++ opcode ++ " predicate '" ++ w ++ "'"
  | loadFromNonPointer t => "load from non-pointer type " ++ t.render
  | indexOnNonPointer t => "getelementptr on non-pointer type " ++ t.render
  | cannotIndex t count => "cannot index " ++ t.render ++ " with " ++ toString count ++
      " indices (struct members need constant indices)"
  | indirectCall => "indirect calls are not supported"
  | namedVoidCall callee => "void call to @" ++ callee ++ " cannot name a result"
  | unsupportedInstruction opcode => "unsupported instruction '" ++ opcode ++ "'"
  | stalled => "the reader makes no progress"

structure ReadError where
  place : Place
  flaw : ReadFlaw
deriving Repr

def ReadError.message (e : ReadError) : String :=
  toString e.place.line ++ ":" ++ toString e.place.column ++ ": " ++ e.flaw.message

end Offload.Compiled
