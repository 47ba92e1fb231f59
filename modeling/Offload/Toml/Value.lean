/-!
# TOML values

A table remembers how it came about, because that decides whether later lines may add to it.
-/

namespace Offload.Toml

inductive TableKind where
  /-- Written between braces; complete. -/
  | inline
  /-- Named only as a part of other headers. -/
  | implicit
  /-- Made by dotted keys. -/
  | dotted
  /-- Has a header of its own. -/
  | explicit
deriving DecidableEq, Repr

inductive Value where
  | str (s : String)
  | int (v : Int)
  | float
  | bool (b : Bool)
  | datetime
  | array (items : List Value)
  | table (kind : TableKind) (entries : List (String × Value))
  /-- Tables under a header that is repeated, the last one last. -/
  | tables (items : List (List (String × Value)))
deriving Repr

abbrev Entries := List (String × Value)

/-- Replace the value of a key, or add the key at the end. -/
def put (es : Entries) (key : String) (v : Value) : Entries :=
  if (es.lookup key).isSome then es.map fun e => if e.1 == key then (key, v) else e
  else es ++ [(key, v)]

/-- Add a key that must be new. -/
def addNew (es : Entries) (key : String) (v : Value) : Option Entries :=
  if (es.lookup key).isSome then none else some (es ++ [(key, v)])

/-- Add the value of a dotted key. The table that the key is in must have been made by dotted keys;
the tables on the way to it may also be implied by headers. -/
def insertDotted (key : String) (v : Value) : List String → Entries → Option Entries
  | [], es => addNew es key v
  | [part], es =>
    match es.lookup part with
    | none => some (es ++ [(part, .table .dotted [(key, v)])])
    | some (.table .dotted inner) => do return put es part (.table .dotted (← addNew inner key v))
    | some _ => none
  | part :: next :: path, es =>
    match es.lookup part with
    | none => do return es ++ [(part, .table .dotted (← insertDotted key v (next :: path) []))]
    | some (.table .implicit inner) => do
      return put es part (.table .implicit (← insertDotted key v (next :: path) inner))
    | some (.table .dotted inner) => do
      return put es part (.table .dotted (← insertDotted key v (next :: path) inner))
    | some (.tables items) => do
      let inner ← insertDotted key v (next :: path) (← items.getLast?)
      return put es part (.tables (items.dropLast ++ [inner]))
    | some _ => none

/-- A key with its value; all but the last part of the key are its path. -/
structure KeyValue where
  path : List String
  key : String
  value : Value

def insertAll (es : Entries) (kvs : List KeyValue) : Option Entries :=
  kvs.foldlM (fun es kv => insertDotted kv.key kv.value kv.path es) es

/-- Change the table at a path of headers, making the tables that are missing. -/
def updateAt (change : Entries → Option Entries) : List String → Entries → Option Entries
  | [], es => change es
  | part :: path, es =>
    match es.lookup part with
    | none => do return es ++ [(part, .table .implicit (← updateAt change path []))]
    | some (.table .inline _) => none
    | some (.table kind inner) => do
      return put es part (.table kind (← updateAt change path inner))
    | some (.tables items) => do
      let inner ← updateAt change path (← items.getLast?)
      return put es part (.tables (items.dropLast ++ [inner]))
    | some _ => none

/-- A header and the lines under it. -/
structure Section where
  path : List String
  name : String
  /-- The header is one of several for the same name. -/
  isRepeated : Bool
  body : List KeyValue

/-- Open the table of a header: a new one, or one that was only implied so far, which takes its
place after the tables opened before. -/
def openTable (s : Section) (es : Entries) : Option Entries :=
  if s.isRepeated then do
    let body ← insertAll [] s.body
    match es.lookup s.name with
    | none => return put es s.name (.tables [body])
    | some (.tables items) => return put es s.name (.tables (items ++ [body]))
    | some _ => none
  else
    match es.lookup s.name with
    | none => do return put es s.name (.table .explicit (← insertAll [] s.body))
    | some (.table .implicit inner) => do
      return (es.filter (·.1 != s.name)) ++ [(s.name, .table .explicit (← insertAll inner s.body))]
    | some _ => none

/-- The table of a document: the lines ahead of all headers, then the sections. -/
def build (body : List KeyValue) (sections : List Section) : Option Entries := do
  let root ← insertAll [] body
  sections.foldlM (fun es s => updateAt (openTable s) s.path es) root

end Offload.Toml
