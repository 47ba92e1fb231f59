import Offload.Toml.Scalar

/-!
# TOML documents

Lines of keys with values and of headers. Arrays and inline tables nest to a fixed depth, and no key
leads deeper than that.
-/

namespace Offload.Toml

/-- How deep arrays and inline tables may nest, and how many parts a key may have. -/
def maxDepth : Nat := 79

/-- The rest after a comment, at the end of its line; a comment holds no control characters. -/
def comment? (cs : List Char) : Option (List Char) :=
  match cs with
  | '#' :: rest => some (rest.dropWhile fun c => !isControl c)
  | _ => none

def skipSpace (cs : List Char) : List Char := cs.dropWhile isSpace

/-- The rest after the end of a line, or the end of the text. -/
def lineEnd (cs : List Char) : Option (List Char) :=
  let rest := skipSpace cs
  let rest := (comment? rest).getD rest
  match rest with
  | [] => some []
  | _ => newline? rest

/-- Skip white space, line ends and comments. -/
def skipLines : Nat → List Char → List Char
  | 0, cs => cs
  | fuel + 1, cs =>
    let rest := skipSpace cs
    match newline? rest with
    | some rest => skipLines fuel rest
    | none =>
      match comment? rest with
      | some rest => skipLines fuel rest
      | none => rest

def skipBlank (cs : List Char) : List Char := skipLines (cs.length + 1) cs

def isBareKeyChar (c : Char) : Bool := c.isAlphanum || c == '_' || c == '-'

def keyPart (cs : List Char) : Option (String × List Char) :=
  match cs with
  | '"' :: rest => (basicString (rest.length + 1) rest).map fun s => (String.ofList s.1, s.2)
  | '\'' :: rest => (literalString rest).map fun s => (String.ofList s.1, s.2)
  | _ =>
    let part := cs.takeWhile isBareKeyChar
    if part.isEmpty then none else some (String.ofList part, cs.drop part.length)

/-- The parts of a key, no more of them than the bound. -/
def keyParts : Nat → List Char → Option (List String × List Char)
  | 0, _ => none
  | bound + 1, cs => do
    let (part, rest) ← keyPart (skipSpace cs)
    match skipSpace rest with
    | '.' :: rest => do
      let (parts, rest) ← keyParts bound rest
      return (part :: parts, rest)
    | rest => return ([part], rest)

/-- A key as its path and its last part. -/
def key (cs : List Char) : Option ((List String × String) × List Char) := do
  let (parts, rest) ← keyParts maxDepth cs
  return ((parts.dropLast, ← parts.getLast?), rest)

mutual

/-- A value; the fuel bounds the number of steps, and the depth how deep values nest. -/
def valueWithin : Nat → Nat → List Char → Option (Value × List Char)
  | 0, _, _ => none
  | fuel + 1, depth, cs =>
    match cs, depth with
    | '[' :: _, 0 | '\x7b' :: _, 0 => none
    | '[' :: rest, depth + 1 => do
      let (items, rest) ← itemsWithin fuel depth (skipBlank rest)
      return (.array items, rest)
    | '\x7b' :: rest, depth + 1 => do
      match skipSpace rest with
      | '\x7d' :: rest => return (.table .inline [], rest)
      | rest =>
        let (kvs, rest) ← pairsWithin fuel depth rest
        return (.table .inline (← insertAll [] kvs), rest)
    | _, _ => scalar cs

/-- The items of an array, after its bracket and white space. -/
def itemsWithin : Nat → Nat → List Char → Option (List Value × List Char)
  | 0, _, _ => none
  | fuel + 1, depth, cs =>
    match cs with
    | ']' :: rest => some ([], rest)
    | _ => do
      let (v, rest) ← valueWithin fuel depth cs
      match skipBlank rest with
      | ',' :: rest => do
        let (vs, rest) ← itemsWithin fuel depth (skipBlank rest)
        return (v :: vs, rest)
      | ']' :: rest => return ([v], rest)
      | _ => none

/-- The keys and values of an inline table, through its closing brace. -/
def pairsWithin : Nat → Nat → List Char → Option (List KeyValue × List Char)
  | 0, _, _ => none
  | fuel + 1, depth, cs => do
    let (kv, rest) ← pairWithin fuel depth cs
    match skipSpace rest with
    | ',' :: rest => do
      let (kvs, rest) ← pairsWithin fuel depth rest
      return (kv :: kvs, rest)
    | '\x7d' :: rest => return ([kv], rest)
    | _ => none

def pairWithin : Nat → Nat → List Char → Option (KeyValue × List Char)
  | 0, _, _ => none
  | fuel + 1, depth, cs => do
    let ((path, name), rest) ← key cs
    let rest ← word? "=" rest
    let (v, rest) ← valueWithin fuel depth (skipSpace rest)
    return (⟨path, name, v⟩, rest)

end

/-- A line with a key and a value. -/
def keyLine (cs : List Char) : Option (KeyValue × List Char) := do
  let (kv, rest) ← pairWithin (4 * cs.length + 4) maxDepth cs
  return (kv, ← lineEnd rest)

/-- A header line, as a section without lines. -/
def headerLine (cs : List Char) : Option (Section × List Char) := do
  match cs with
  | '[' :: '[' :: rest =>
    let ((path, name), rest) ← key rest
    return (⟨path, name, true, []⟩, ← lineEnd (← word? "]]" rest))
  | '[' :: rest =>
    let ((path, name), rest) ← key rest
    return (⟨path, name, false, []⟩, ← lineEnd (← word? "]" rest))
  | _ => none

/-- The lines of a document, as the lines ahead of all headers and the sections. -/
def linesFrom : Nat → List Char → Option (List KeyValue × List Section)
  | 0, _ => none
  | fuel + 1, cs =>
    match skipBlank cs with
    | [] => some ([], [])
    | '[' :: rest => do
      let (s, rest) ← headerLine ('[' :: rest)
      let (body, sections) ← linesFrom fuel rest
      return ([], { s with body := body } :: sections)
    | rest => do
      let (kv, rest) ← keyLine rest
      let (body, sections) ← linesFrom fuel rest
      return (kv :: body, sections)

/-- Drop a byte order mark. -/
def dropMark : List Char → List Char
  | '\ufeff' :: rest => rest
  | cs => cs

/-- The table of a document, if the text is one. -/
def parse? (text : String) : Option Entries := do
  let cs := dropMark text.toList
  let (body, sections) ← linesFrom (cs.length + 1) cs
  build body sections

end Offload.Toml
