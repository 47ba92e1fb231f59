import Offload.Source.Token

/-!
# The lexer

Scanning works on the bytes that are left and their offset. `skip` passes over everything that
belongs to no token: blanks, comments, continued lines, and stray bytes, which are reported one by
one. What it stops at always starts a token, so each further step consumes at least one byte.

Literals that are cut short are reported and still make tokens. One case has no token at all: a
plain string whose last byte in the document is an unpaired backslash.
-/

namespace Offload.Source

/-- The bytes not yet scanned. An offset may lie one past the end of the text: an escape or a raw
string's delimiter can ask for a byte more than there is. -/
structure Scan where
  rest : List UInt8
  offset : Nat
  lineStart : Bool
deriving DecidableEq, Repr

namespace Scan

def ofDocument (doc : Document) : Scan := ⟨doc.bytes, 0, true⟩

/-- Scanning from an offset as if a token had just ended there. -/
def resume (doc : Document) (offset : Nat) : Scan :=
  let offset := min offset doc.length
  ⟨doc.bytes.drop offset, offset, false⟩

end Scan

def isIdentStart (b : UInt8) : Bool :=
  Ascii.isAlpha b || b == Ascii.underscore || b == Ascii.dollar

def isIdentContinue (b : UInt8) : Bool := isIdentStart b || Ascii.isDigit b

/-- All punctuators, longer ones before their own beginnings. Two closing angle brackets stay two
tokens so that nested template argument lists close. -/
def punctuators : List String :=
  ["->*", "<<=", "...",
    "##", "::", "&&", "&=", "*=", "==", "->", "<<", "<=", ">=", ".*", "++", "--", "||",
    "+=", "-=", "/=", "%=", "^=", "|=", "!=",
    "(", ")", "\x7b", "\x7d", "[", "]", ",", ";", "#", ":", "&", "*", "=", "<", ">",
    "+", "-", "/", "%", "^", "|", "!", "~", "?", "."]

def punctuator (s : String) : Lexeme :=
  match Symbol.ofSpelling? s with
  | some x => .symbol x
  | none => .punct s

def startsPunctuator (b : UInt8) : Bool := punctuators.any fun s => (Text.bytes s).head? == some b

/-- Bytes with which a token can start. -/
def startsToken (b : UInt8) : Bool :=
  isIdentStart b || Ascii.isDigit b || b == Ascii.doubleQuote || b == Ascii.singleQuote ||
    startsPunctuator b

inductive SkipMode where
  | code
  | lineComment
  | blockComment (start : Nat)

/-- A stray byte at `offset`, reported ahead of what follows it. -/
def reportStray (b : UInt8) (offset : Nat) (r : Scan × List Diagnostic) : Scan × List Diagnostic :=
  (r.1, ⟨.unexpectedByte b, ⟨offset, offset + 1⟩⟩ :: r.2)

/-- Pass over what belongs to no token. -/
def skip : SkipMode → Nat → Bool → List UInt8 → Scan × List Diagnostic
  | .blockComment start, offset, lineStart, [] =>
    (⟨[], offset, lineStart⟩, [⟨.unterminatedComment, ⟨start, offset⟩⟩])
  | .blockComment start, offset, lineStart, [_] =>
    (⟨[], offset + 1, lineStart⟩, [⟨.unterminatedComment, ⟨start, offset + 1⟩⟩])
  | .blockComment start, offset, lineStart, b :: c :: tail =>
    if b == Ascii.star && c == Ascii.slash then skip .code (offset + 2) lineStart tail
    else skip (.blockComment start) (offset + 1) (lineStart || b == Ascii.newline) (c :: tail)
  | .lineComment, offset, lineStart, [] => (⟨[], offset, lineStart⟩, [])
  | .lineComment, offset, lineStart, b :: tail =>
    if b == Ascii.newline then skip .code (offset + 1) true tail
    else skip .lineComment (offset + 1) lineStart tail
  | .code, offset, lineStart, [] => (⟨[], offset, lineStart⟩, [])
  | .code, offset, lineStart, [b] =>
    if b == Ascii.newline then (⟨[], offset + 1, true⟩, [])
    else if Ascii.isBlank b then (⟨[], offset + 1, lineStart⟩, [])
    else if startsToken b then (⟨[b], offset, lineStart⟩, [])
    else reportStray b offset (⟨[], offset + 1, lineStart⟩, [])
  | .code, offset, lineStart, b :: c :: tail =>
    if b == Ascii.newline then skip .code (offset + 1) true (c :: tail)
    else if Ascii.isBlank b then skip .code (offset + 1) lineStart (c :: tail)
    else if b == Ascii.slash && c == Ascii.slash then skip .lineComment (offset + 2) lineStart tail
    else if b == Ascii.slash && c == Ascii.star then
      skip (.blockComment offset) (offset + 2) lineStart tail
    else if startsToken b then (⟨b :: c :: tail, offset, lineStart⟩, [])
    else if b == Ascii.backslash && c == Ascii.newline then skip .code (offset + 2) lineStart tail
    else
      match tail with
      | d :: more =>
        if b == Ascii.backslash && c == Ascii.carriageReturn && d == Ascii.newline then
          skip .code (offset + 3) lineStart more
        else reportStray b offset (skip .code (offset + 1) lineStart (c :: d :: more))
      | [] => reportStray b offset (skip .code (offset + 1) lineStart [c])

/-- One token's worth of bytes, all lengths counted from its first byte. -/
structure Scanned where
  lexeme : Lexeme
  /-- Length of the token's span. -/
  length : Nat
  /-- Length of what scanning has passed. -/
  consumed : Nat
  /-- A literal cut short, and the length of the span that reports it. -/
  problem : Option (Problem × Nat)

def Scanned.complete (lexeme : Lexeme) (length : Nat) : Scanned := ⟨lexeme, length, length, none⟩

/-- Length of a quoted body up to its closing quote, and whether that quote was found before the
line ended. A backslash takes the byte after it along, even past the end. -/
def quotedBody (quote : UInt8) : List UInt8 → Nat × Bool
  | [] => (0, false)
  | b :: tail =>
    if b == Ascii.newline then (0, false)
    else if b == Ascii.backslash then
      match tail with
      | [] => (2, false)
      | _ :: more =>
        let (n, closed) := quotedBody quote more
        (n + 2, closed)
    else if b == quote then (0, true)
    else
      let (n, closed) := quotedBody quote tail
      (n + 1, closed)

/-- A plain string whose quote stands after `opening` bytes of encoding marks. -/
def scanString (opening : Nat) (rest : List UInt8) : Except Fault Scanned :=
  let body := rest.drop (opening + 1)
  let (n, closed) := quotedBody Ascii.doubleQuote body
  let length := opening + 1 + n
  if closed then
    .ok (.complete (.str (Text.ofBytes (body.take n))) (length + 1))
  else if n ≤ body.length then
    .ok ⟨.str (Text.ofBytes (body.take n)), length, length, some (.unterminatedString, length)⟩
  else
    .error (.text (opening + 1) length)

/-- Number of bytes before the first occurrence of `closing`, which is not empty. -/
def lengthBefore (closing : List UInt8) : List UInt8 → Option Nat
  | [] => none
  | b :: tail =>
    if closing.isPrefixOf (b :: tail) then some 0 else (lengthBefore closing tail).map (· + 1)

/-- A raw string whose delimiter starts after `opening` bytes. Without a parenthesis the delimiter
is all that is left and the body would start one byte past it. -/
def scanRawString (opening : Nat) (rest : List UInt8) : Scanned :=
  let delimiter := (rest.drop opening).takeWhile (· != Ascii.openParen)
  let bodyStart := opening + delimiter.length + 1
  let body := rest.drop bodyStart
  match lengthBefore (Ascii.closeParen :: delimiter ++ [Ascii.doubleQuote]) body with
  | some n => .complete (.str (Text.ofBytes (body.take n))) (bodyStart + n + delimiter.length + 2)
  | none =>
    let length := max bodyStart rest.length
    ⟨.str (Text.ofBytes body), length, length, some (.unterminatedRawString, length)⟩

/-- A character literal; its token never ends past the text, although scanning may. -/
def scanCharacter (rest : List UInt8) : Scanned :=
  let (n, closed) := quotedBody Ascii.singleQuote (rest.drop 1)
  if closed then
    .complete (.char (Text.ofBytes (rest.take (n + 2)))) (n + 2)
  else
    let length := min (n + 1) rest.length
    ⟨.char (Text.ofBytes (rest.take length)), length, n + 1,
      some (.unterminatedCharacter, n + 1)⟩

/-- Length of the rest of a number after `previous`: a sign belongs to it directly after an
exponent letter. -/
def numberTail (previous : UInt8) : List UInt8 → Nat
  | [] => 0
  | b :: tail =>
    let exponentSign := (b == Ascii.plus || b == Ascii.minus) &&
      (previous == 0x65 || previous == 0x45 || previous == 0x70 || previous == 0x50)
    if Ascii.isAlphanumeric b || b == Ascii.dot || b == Ascii.underscore ||
        b == Ascii.singleQuote || exponentSign then
      numberTail b tail + 1
    else 0

/-- Marks that may stand before a quote. -/
def encodings : List String := ["u8", "u", "U", "L", ""]

/-- What opens a raw string after the encoding marks. -/
def rawQuote : List UInt8 := Text.bytes "R\""

/-- A string literal with its encoding marks, plain or raw. -/
def scanString? (rest : List UInt8) : Option (Except Fault Scanned) :=
  encodings.findSome? fun mark =>
    let m := Text.bytes mark
    if m.isPrefixOf rest then
      let after := rest.drop m.length
      if rawQuote.isPrefixOf after then some (.ok (scanRawString (m.length + 2) rest))
      else if after.head? == some Ascii.doubleQuote then some (scanString m.length rest)
      else none
    else none

def scanPunctuator? (rest : List UInt8) : Option Scanned :=
  punctuators.findSome? fun s =>
    let bs := Text.bytes s
    if bs.isPrefixOf rest then some (.complete (punctuator s) bs.length) else none

/-- The token at the front of `b :: tail`. -/
def scanToken (b : UInt8) (tail : List UInt8) : Except Fault Scanned :=
  let rest := b :: tail
  match scanString? rest with
  | some r => r
  | none =>
    if isIdentStart b then
      let n := (rest.takeWhile isIdentContinue).length
      .ok (.complete (.ident (Text.ofBytes (rest.take n))) n)
    else if Ascii.isDigit b || (b == Ascii.dot && tail.head?.any Ascii.isDigit) then
      let n := numberTail b tail + 1
      .ok (.complete (.number (Text.ofBytes (rest.take n))) n)
    else if b == Ascii.singleQuote then
      .ok (scanCharacter rest)
    else
      match scanPunctuator? rest with
      | some r => .ok r
      | none => .error .exhausted

/-- One token, what was reported on the way to it, and where scanning goes on. -/
structure Step where
  token : Token
  found : List Diagnostic
  next : Scan

/-- The next token; `eof` at the end of the text, as often as it is asked for. -/
def Scan.step (s : Scan) : Except Fault Step :=
  let (s, found) := skip .code s.offset s.lineStart s.rest
  match s.rest with
  | [] =>
    .ok ⟨⟨.eof, .point s.offset, s.lineStart, .file, none⟩, found, { s with lineStart := false }⟩
  | b :: tail =>
    match scanToken b tail with
    | .error fault => .error fault
    | .ok r =>
      let reported := match r.problem with
        | some (problem, length) => [⟨problem, ⟨s.offset, s.offset + length⟩⟩]
        | none => []
      .ok {
        token := ⟨r.lexeme, ⟨s.offset, s.offset + r.length⟩, s.lineStart, .file, none⟩
        found := found ++ reported
        next := ⟨s.rest.drop r.consumed, s.offset + r.consumed, false⟩ }

/-- Tokens up to and including `eof`. -/
def Scan.tokens : Nat → Scan → Except Fault (List Token × List Diagnostic)
  | 0, _ => .error .exhausted
  | fuel + 1, s => do
    let step ← s.step
    if step.token.isEof then
      return ([step.token], step.found)
    let (tokens, found) ← Scan.tokens fuel step.next
    return (step.token :: tokens, step.found ++ found)

/-- All tokens of a document. Every step but the last consumes a byte. -/
def tokenize (doc : Document) : Except Fault (List Token × List Diagnostic) :=
  (Scan.ofDocument doc).tokens (doc.length + 1)

/-- The first `count` tokens from a scan. -/
def Scan.take : Nat → Scan → Except Fault (List Token)
  | 0, _ => .ok []
  | count + 1, s => do
    let step ← s.step
    let rest ← Scan.take count step.next
    return step.token :: rest

end Offload.Source
