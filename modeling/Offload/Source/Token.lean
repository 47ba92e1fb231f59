import Offload.Diagnostic
import Offload.Source.Lexeme

/-!
# Tokens

A token's span is always a place in the main file: for a token made by a macro it is the macro's
use, and `spelled` is where the token stands in the macro's definition.
-/

namespace Offload.Source

structure Token where
  lexeme : Lexeme
  span : Span
  /-- First token on its line, continued lines counting as one. -/
  atLineStart : Bool
  position : MacroPosition
  spelled : Option Span
deriving DecidableEq, Repr

namespace Token

def isEof (t : Token) : Bool := t.lexeme == .eof

def isExpanded (t : Token) : Bool := t.position != .file

end Token

/-- Text of a token sequence: a space between two words and after each comma, nothing elsewhere. -/
def renderFrom : Option Lexeme → List Token → String
  | _, [] => ""
  | previous, t :: rest =>
    let spaced : Bool := match previous with
      | some p => (p.isWord && t.lexeme.isWord) || p == .symbol .comma
      | none => false
    (if spaced then " " else "") ++ t.lexeme.spelling ++ renderFrom (some t.lexeme) rest

def render (ts : List Token) : String := renderFrom none ts

end Offload.Source
