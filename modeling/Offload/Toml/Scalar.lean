import Offload.Number.Literal
import Offload.Toml.Value

/-!
# TOML scalars

Strings, numbers and dates, each read off the front of a list of characters.
-/

namespace Offload.Toml

def isControl (c : Char) : Bool := (c.toNat < 0x20 && c != '\t') || c.toNat == 0x7F

def isSpace (c : Char) : Bool := c == ' ' || c == '\t'

/-- The rest after a line end. -/
def newline? : List Char → Option (List Char)
  | '\n' :: rest => some rest
  | '\r' :: '\n' :: rest => some rest
  | _ => none

/-- A code point given by exactly `n` hexadecimal digits. -/
def codePoint (n : Nat) (cs : List Char) : Option (Char × List Char) := do
  let digits := cs.take n
  let v ← Text.Numeral.digits? 16 digits
  if digits.length = n ∧ v.isValidChar then some (Char.ofNat v, cs.drop n) else none

/-- What a backslash and the characters after it stand for. -/
def escape : List Char → Option (Char × List Char)
  | 'b' :: rest => some ('\x08', rest)
  | 't' :: rest => some ('\t', rest)
  | 'n' :: rest => some ('\n', rest)
  | 'f' :: rest => some ('\x0c', rest)
  | 'r' :: rest => some ('\r', rest)
  | '"' :: rest => some ('"', rest)
  | '\\' :: rest => some ('\\', rest)
  | 'u' :: rest => codePoint 4 rest
  | 'U' :: rest => codePoint 8 rest
  | _ => none

/-- A string on one line, after its opening quote. -/
def basicString : Nat → List Char → Option (List Char × List Char)
  | 0, _ | _, [] => none
  | fuel + 1, c :: rest =>
    if c == '"' then some ([], rest)
    else if c == '\\' then do
      let (e, rest) ← escape rest
      let (s, rest) ← basicString fuel rest
      return (e :: s, rest)
    else if isControl c then none
    else do
      let (s, rest) ← basicString fuel rest
      return (c :: s, rest)

/-- A string without escapes on one line, after its opening quote. -/
def literalString : List Char → Option (List Char × List Char)
  | [] => none
  | c :: rest =>
    if c == '\'' then some ([], rest)
    else if isControl c then none
    else do
      let (s, rest) ← literalString rest
      return (c :: s, rest)

/-- Skip white space and line ends. -/
def skipBreaks : Nat → List Char → List Char
  | 0, cs => cs
  | fuel + 1, cs =>
    match newline? (cs.dropWhile isSpace) with
    | some rest => skipBreaks fuel rest
    | none => cs.dropWhile isSpace

/-- The rest after an escaped line end, which takes all white space after it along. -/
def skippedLines? (cs : List Char) : Option (List Char) := do
  let rest ← newline? (cs.dropWhile isSpace)
  return skipBreaks (rest.length + 1) rest

/-- A string over several lines, after its opening quotes: three quotes end it, and one or two more
directly before them belong to it. -/
def multiString (quote : Char) (escapes : Bool) : Nat → List Char → Option (List Char × List Char)
  | 0, _ | _, [] => none
  | fuel + 1, c :: rest =>
    if c == quote then
      let quotes := (c :: rest).takeWhile (· == quote)
      let n := quotes.length
      if n < 3 then do
        let (s, rest) ← multiString quote escapes fuel ((c :: rest).drop n)
        return (quotes ++ s, rest)
      else if n < 6 then some (quotes.take (n - 3), (c :: rest).drop n)
      else none
    else if escapes && c == '\\' then
      match skippedLines? rest with
      | some rest => multiString quote escapes fuel rest
      | none => do
        let (e, rest) ← escape rest
        let (s, rest) ← multiString quote escapes fuel rest
        return (e :: s, rest)
    else
      match newline? (c :: rest) with
      | some rest => do
        let (s, rest) ← multiString quote escapes fuel rest
        return ('\n' :: s, rest)
      | none =>
        if isControl c then none
        else do
          let (s, rest) ← multiString quote escapes fuel rest
          return (c :: s, rest)

/-- A line end directly after the opening quotes is not part of the string. -/
def multiStart (cs : List Char) : List Char := (newline? cs).getD cs

def string : List Char → Option (List Char × List Char)
  | '"' :: '"' :: '"' :: rest => multiString '"' true (rest.length + 1) (multiStart rest)
  | '"' :: rest => basicString (rest.length + 1) rest
  | '\'' :: '\'' :: '\'' :: rest => multiString '\'' false (rest.length + 1) (multiStart rest)
  | '\'' :: rest => literalString rest
  | _ => none

/-- More digits of a number; an underscore may stand between two. -/
def moreDigits (isDigit : Char → Bool) : List Char → List Char × List Char
  | [] => ([], [])
  | [c] => if isDigit c then ([c], []) else ([], [c])
  | c :: d :: rest =>
    if isDigit c then
      let (ds, rest) := moreDigits isDigit (d :: rest)
      (c :: ds, rest)
    else if c == '_' && isDigit d then
      let (ds, rest) := moreDigits isDigit rest
      (d :: ds, rest)
    else ([], c :: d :: rest)

/-- At least one digit. -/
def digits (isDigit : Char → Bool) : List Char → Option (List Char × List Char)
  | [] => none
  | c :: rest =>
    if isDigit c then
      let (ds, rest) := moreDigits isDigit rest
      some (c :: ds, rest)
    else none

def sign : List Char → List Char × List Char
  | '+' :: rest => (['+'], rest)
  | '-' :: rest => (['-'], rest)
  | rest => ([], rest)

/-- A decimal integer as a numeral: it does not start with a zero unless it is one. -/
def decimal (cs : List Char) : Option (List Char × List Char) := do
  let (s, rest) := sign cs
  match rest with
  | '0' :: rest => return (s ++ ['0'], rest)
  | _ =>
    let (ds, rest) ← digits Char.isDigit rest
    return (s ++ ds, rest)

def exponent : List Char → Option (List Char × List Char)
  | 'e' :: rest | 'E' :: rest => do
    let (s, rest) := sign rest
    let (ds, rest) ← digits Char.isDigit rest
    return ('e' :: s ++ ds, rest)
  | _ => none

def fraction : List Char → Option (List Char × List Char)
  | '.' :: rest => do
    let (ds, rest) ← digits Char.isDigit rest
    return ('.' :: ds, rest)
  | _ => none

/-- The rest after a word. -/
def word? (w : String) (cs : List Char) : Option (List Char) :=
  if w.toList.isPrefixOf cs then some (cs.drop w.length) else none

/-- A number with a fraction or an exponent; one that is too large is refused. -/
def float (cs : List Char) : Option (Value × List Char) := do
  let (whole, rest) ← decimal cs
  let (tail, rest) ←
    match exponent rest with
    | some e => some e
    | none => do
      let (f, rest) ← fraction rest
      match exponent rest with
      | some (e, rest) => some (f ++ e, rest)
      | none => some (f, rest)
  let v ← Binary64.ofLiteral? (whole ++ tail)
  if v.isInfinite && !v.isNegative then none else some (.float, rest)

def specialFloat (cs : List Char) : Option (Value × List Char) := do
  let rest := (sign cs).2
  let rest ← (word? "inf" rest).or (word? "nan" rest)
  return (.float, rest)

/-- Digits of an integer in another base, after its mark. -/
def inBase (base : Nat) (cs : List Char) : Option (Value × List Char) := do
  let (ds, rest) ← digits (fun c => (Text.Numeral.digit? base c).isSome) cs
  let v ← Text.Numeral.digits? base ds
  if v < Text.Numeral.signedBound then some (.int v, rest) else none

def integer : List Char → Option (Value × List Char)
  | '0' :: 'x' :: rest => inBase 16 rest
  | '0' :: 'o' :: rest => inBase 8 rest
  | '0' :: 'b' :: rest => inBase 2 rest
  | cs => do
    let (ds, rest) ← decimal cs
    return (.int (← Text.Numeral.integer? ds), rest)

/-- Exactly `n` digits with a value between bounds. -/
def field (n low high : Nat) (cs : List Char) : Option (Nat × List Char) := do
  let ds := cs.take n
  if ds.length = n ∧ ds.all Char.isDigit then
    let v ← Text.Numeral.digits? 10 ds
    if low ≤ v ∧ v ≤ high then some (v, cs.drop n) else none
  else none

def daysIn (year month : Nat) : Nat :=
  if month = 2 then
    if year % 4 = 0 ∧ (year % 100 ≠ 0 ∨ year % 400 = 0) then 29 else 28
  else if month ∈ [4, 6, 9, 11] then 30
  else 31

def date (cs : List Char) : Option (List Char) := do
  let (year, rest) ← field 4 0 9999 cs
  let (month, rest) ← field 2 1 12 (← word? "-" rest)
  let (_, rest) ← field 2 1 (daysIn year month) (← word? "-" rest)
  return rest

def time (cs : List Char) : Option (List Char) := do
  let (_, rest) ← field 2 0 23 cs
  let (_, rest) ← field 2 0 59 (← word? ":" rest)
  let (_, rest) ← field 2 0 60 (← word? ":" rest)
  match rest with
  | '.' :: c :: tail => if c.isDigit then return tail.dropWhile Char.isDigit else return rest
  | _ => return rest

/-- The offset from universal time, if one is written. -/
def offset (cs : List Char) : List Char :=
  match cs with
  | 'Z' :: rest | 'z' :: rest => rest
  | '+' :: rest | '-' :: rest =>
    let written := do
      let (_, rest) ← field 2 0 23 rest
      let (_, rest) ← field 2 0 59 (← word? ":" rest)
      return rest
    written.getD cs
  | _ => cs

def datetime (cs : List Char) : Option (Value × List Char) :=
  match date cs with
  | none => (time cs).map fun rest => (.datetime, rest)
  | some rest =>
    match rest with
    | c :: tail =>
      if c == 'T' || c == 't' || c == ' ' then
        match time tail with
        | some tail => some (.datetime, offset tail)
        | none => some (.datetime, rest)
      else some (.datetime, rest)
    | [] => some (.datetime, [])

def number (cs : List Char) : Option (Value × List Char) :=
  (datetime cs).or ((float cs).or ((specialFloat cs).or (integer cs)))

/-- A value that contains no other. -/
def scalar (cs : List Char) : Option (Value × List Char) :=
  match cs with
  | '"' :: _ | '\'' :: _ => (string cs).map fun s => (.str (String.ofList s.1), s.2)
  | 't' :: _ => (word? "true" cs).map fun rest => (.bool true, rest)
  | 'f' :: _ => (word? "false" cs).map fun rest => (.bool false, rest)
  | 'i' :: _ | 'n' :: _ => specialFloat cs
  | _ => number cs

end Offload.Toml
