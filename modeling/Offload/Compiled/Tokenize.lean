import Offload.Compiled.Token

/-!
# Tokenizing module text

A token is scanned off the front of the remaining bytes as its value and its length. Only newlines
between tokens start a new line; the places of later tokens count from there.
-/

namespace Offload.Compiled

def isNameByte (b : UInt8) : Bool :=
  Ascii.isAlphanumeric b || b == Ascii.underscore || b == Ascii.dot || b == Ascii.dollar

/-- Value of the two characters after a backslash: two hexadecimal digits, or a plus sign and
one. -/
def escapeValue? (a b : UInt8) : Option UInt8 :=
  (Text.Numeral.natural? 16 256 [Ascii.latin1 a, Ascii.latin1 b]).map UInt8.ofNat

/-- The bytes that a byte string denotes: a doubled backslash stands for one, and a backslash with
two digits for the byte of that value. -/
def unescape? : List UInt8 → Option (List UInt8)
  | [] => some []
  | b :: rest =>
    if b != Ascii.backslash then (unescape? rest).map (b :: ·)
    else
      match rest with
      | [] => none
      | c :: rest =>
        if c == Ascii.backslash then (unescape? rest).map (b :: ·)
        else
          match rest with
          | [] => none
          | d :: rest => do
            let v ← escapeValue? c d
            return v :: (← unescape? rest)

/-- The bytes up to a closing quote, which must be there. -/
def quoted? (bs : List UInt8) : Option (List UInt8) :=
  let body := bs.takeWhile (· != Ascii.doubleQuote)
  if body.length < bs.length then some body else none

/-- Name after a sigil, quoted or plain, with its length. -/
def scanName (sigil : UInt8) (bs : List UInt8) : Except ReadFlaw (String × Nat) :=
  match bs with
  | [] => .error (.missingName (Ascii.latin1 sigil))
  | b :: rest =>
    if b == Ascii.doubleQuote then
      match quoted? rest with
      | some body => .ok (Text.ofBytes body, body.length + 2)
      | none => .error .unterminatedName
    else
      let body := (b :: rest).takeWhile fun c => isNameByte c || c == Ascii.minus
      if body.isEmpty then .error (.missingName (Ascii.latin1 sigil))
      else .ok (Text.ofBytes body, body.length)

def isSign (b : UInt8) : Bool := b == Ascii.plus || b == Ascii.minus

def startsFraction (b : UInt8) : Bool := b == Ascii.dot || b == 0x65 || b == 0x45

/-- Length of the digits, points and exponents that continue a number, and whether it has a point
or an exponent; a sign may follow directly after either. -/
def numberTail : List UInt8 → Nat × Bool
  | [] => (0, false)
  | [b] =>
    if Ascii.isDigit b then (1, false) else if startsFraction b then (1, true) else (0, false)
  | b :: c :: rest =>
    if Ascii.isDigit b then
      let (n, isFloat) := numberTail (c :: rest)
      (n + 1, isFloat)
    else if startsFraction b then
      if isSign c then ((numberTail rest).1 + 2, true) else ((numberTail (c :: rest)).1 + 1, true)
    else (0, false)

/-- A label takes its colon along. -/
def labelOr (name : List UInt8) (rest : List UInt8) (otherwise : Except ReadFlaw (Tok × Nat)) :
    Except ReadFlaw (Tok × Nat) :=
  match rest with
  | b :: _ =>
    if b == Ascii.colon then .ok (.label (Text.ofBytes name), name.length + 1) else otherwise
  | [] => otherwise

def scanHex (bs : List UInt8) : Except ReadFlaw (Tok × Nat) :=
  let digits := bs.takeWhile Ascii.isHexDigit
  match Text.Numeral.digits? 16 (digits.map Ascii.latin1) with
  | none => .error .emptyHex
  | some v =>
    if v < UInt64.size then .ok (.bits (UInt64.ofNat v), digits.length + 2) else .error .hexTooLarge

def scanNumber (b : UInt8) (rest : List UInt8) : Except ReadFlaw (Tok × Nat) :=
  let (n, isFloat) := numberTail rest
  let body := b :: rest.take n
  let literal := body.map Ascii.latin1
  labelOr body (rest.drop n) <|
    if isFloat then
      match Binary64.ofLiteral? literal with
      | some v => .ok (.float v, body.length)
      | none => .error (.badFloat (String.ofList literal))
    else
      match Text.Numeral.integer? literal with
      | some v => .ok (.int v, body.length)
      | none => .error (.badInteger (String.ofList literal))

/-- `|` stands only between flags of debug information. -/
def isMark (b : UInt8) : Bool := "=,()\x7b\x7d[]*#!<>|".toList.contains (Ascii.latin1 b)

def scanString (bs : List UInt8) : Except ReadFlaw (List UInt8) :=
  match quoted? bs with
  | some body => .ok body
  | none => .error .unterminatedString

/-- The token that starts with `b`, and its length. -/
def scanTok (b : UInt8) (rest : List UInt8) : Except ReadFlaw (Tok × Nat) :=
  if b == Ascii.percent || b == Ascii.atSign then do
    let (name, n) ← scanName b rest
    return (if b == Ascii.percent then .value name else .symbol name, n + 1)
  else if b == Ascii.doubleQuote then do
    let body ← scanString rest
    return (.str (Text.ofBytes body), body.length + 2)
  else if b == Ascii.lowerC && rest.head? == some Ascii.doubleQuote then do
    let body ← scanString rest.tail
    match unescape? body with
    | some bs => return (.bytes bs, body.length + 3)
    | none => .error .badEscape
  else if b == Ascii.zero && rest.head? == some Ascii.lowerX then scanHex rest.tail
  else if Ascii.isDigit b || isSign b then scanNumber b rest
  else if Ascii.isAlpha b || b == Ascii.underscore || b == Ascii.dot || b == Ascii.dollar then
    let word := b :: rest.takeWhile isNameByte
    labelOr word (rest.drop (word.length - 1)) (.ok (.word (Text.ofBytes word), word.length))
  else if isMark b then .ok (.mark (Ascii.latin1 b), 1)
  else .error (.strayByte b)

/-- The tokens of some text and the place of its end. -/
structure TokenText where
  tokens : List Token
  finish : Place

/-- Tokens of the remaining bytes, of which the first stands at `place`. -/
def tokensFrom : Nat → Place → List UInt8 → Except ReadError TokenText
  | 0, place, _ => .ok ⟨[], place⟩
  | _ + 1, place, [] => .ok ⟨[], place⟩
  | fuel + 1, place, b :: rest =>
    if b == Ascii.newline then tokensFrom fuel ⟨place.line + 1, 1⟩ rest
    else if Ascii.isBlank b then tokensFrom fuel ⟨place.line, place.column + 1⟩ rest
    else if b == Ascii.semicolon then
      let comment := (b :: rest).takeWhile (· != Ascii.newline)
      tokensFrom fuel ⟨place.line, place.column + comment.length⟩ ((b :: rest).drop comment.length)
    else
      match scanTok b rest with
      | .error flaw => .error ⟨place, flaw⟩
      | .ok (tok, n) => do
        let others ← tokensFrom fuel ⟨place.line, place.column + n⟩ ((b :: rest).drop n)
        return { others with tokens := ⟨tok, place⟩ :: others.tokens }

/-- Every step takes at least one byte. -/
def tokenizeModule (text : String) : Except ReadError TokenText :=
  let bs := Text.bytes text
  tokensFrom (bs.length + 1) ⟨1, 1⟩ bs

end Offload.Compiled
