/-!
# Lexemes

Keywords are identifiers; what they mean depends on where they stand. The punctuators that shape
declarations are symbols of their own, all others are `punct`.
-/

namespace Offload.Source

inductive Symbol where
  | openParen
  | closeParen
  | openBrace
  | closeBrace
  | openBracket
  | closeBracket
  | less
  | greater
  | comma
  | semicolon
  | colonColon
  | colon
  | amp
  | ampAmp
  | star
  | equal
  | arrow
  | hash
deriving DecidableEq, Repr

namespace Symbol

def spelling : Symbol → String
  | .openParen => "("
  | .closeParen => ")"
  | .openBrace => "\x7b"
  | .closeBrace => "\x7d"
  | .openBracket => "["
  | .closeBracket => "]"
  | .less => "<"
  | .greater => ">"
  | .comma => ","
  | .semicolon => ";"
  | .colonColon => "::"
  | .colon => ":"
  | .amp => "&"
  | .ampAmp => "&&"
  | .star => "*"
  | .equal => "="
  | .arrow => "->"
  | .hash => "#"

def all : List Symbol :=
  [.openParen, .closeParen, .openBrace, .closeBrace, .openBracket, .closeBracket, .less, .greater,
    .comma, .semicolon, .colonColon, .colon, .amp, .ampAmp, .star, .equal, .arrow, .hash]

def ofSpelling? (s : String) : Option Symbol := all.find? fun x => x.spelling == s

/-- Opening brackets; angle brackets are told apart from operators elsewhere. -/
def opens : Symbol → Bool
  | .openParen | .openBrace | .openBracket => true
  | _ => false

def closes : Symbol → Bool
  | .closeParen | .closeBrace | .closeBracket => true
  | _ => false

end Symbol

inductive Lexeme where
  | ident (name : String)
  /-- Spelled as written, suffixes included. -/
  | number (text : String)
  /-- Contents with escapes left as written. -/
  | str (contents : String)
  /-- Spelled as written, quotes included. -/
  | char (text : String)
  | symbol (s : Symbol)
  | punct (text : String)
  | eof
deriving DecidableEq, Repr

namespace Lexeme

def ident? : Lexeme → Option String
  | .ident name => some name
  | _ => none

def isIdent (l : Lexeme) : Bool := l.ident?.isSome

def isWord (l : Lexeme) : Bool :=
  match l with
  | .ident _ | .number _ | .str _ | .char _ => true
  | _ => false

def opens : Lexeme → Bool
  | .symbol s => s.opens
  | _ => false

def closes : Lexeme → Bool
  | .symbol s => s.closes
  | _ => false

/-- The lexeme as it is written when type text is rebuilt from tokens. -/
def spelling : Lexeme → String
  | .ident s | .number s | .char s | .punct s => s
  | .str s => "\"" ++ s ++ "\""
  | .symbol s => s.spelling
  | .eof => ""

end Lexeme

/-- Keywords that start a statement rather than a declaration. -/
def statementKeywords : List String :=
  ["return", "if", "else", "for", "while", "do", "switch", "case", "default", "break",
    "continue", "goto", "delete", "throw", "try", "catch", "co_return", "co_yield",
    "static_assert"]

/-- Specifiers and qualifiers that may stand in a declaration before its name. -/
def declarationSpecifiers : List String :=
  ["static", "inline", "extern", "virtual", "explicit", "constexpr", "consteval", "friend",
    "typename", "const", "volatile", "unsigned", "signed", "mutable", "thread_local", "register"]

/-- Builtin type keywords; never the name of a declarator. -/
def typeKeywords : List String :=
  ["void", "bool", "char", "short", "int", "long", "float", "double", "unsigned", "signed",
    "auto", "wchar_t", "char8_t", "char16_t", "char32_t"]

/-- Words that may precede a parenthesis without naming a function. -/
def nonCallable : List String :=
  ["if", "while", "for", "switch", "return", "sizeof", "alignof", "alignas", "decltype",
    "noexcept", "throw", "catch", "__attribute__", "__declspec", "typeid", "static_assert",
    "co_await", "co_return"]

/-- Keywords whose statement governs a statement or block that follows. -/
def compoundKeywords : List String :=
  ["if", "else", "for", "while", "do", "switch", "try", "catch"]

/-- Storage classes, left out of the type recorded for a local. -/
def storageClasses : List String := ["static", "register", "thread_local", "extern", "inline"]

end Offload.Source
