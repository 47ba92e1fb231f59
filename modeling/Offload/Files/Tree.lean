import Offload.Files.Access
import Offload.Files.Path

/-!
# File trees

Files below a working directory as a value. A directory is there if a file lies below it. Of what
lies outside, only the directories above and the null device are known; nothing else is found there,
and what is written there leaves the tree as it is.
-/

namespace Offload.Files

/-- Files by the parts of their paths. -/
structure FileTree where
  files : List (List String × String)
deriving DecidableEq, Repr

/-- Where a path leads. -/
inductive Place where
  /-- Below the working directory. -/
  | inside (path : List String)
  /-- A directory that the working directory is in. -/
  | above
  /-- A name in a directory above. -/
  | unknown
  | nullDevice
deriving DecidableEq, Repr

/-- What is at a place. -/
inductive Node where
  | file (text : String)
  | directory
  | missing
deriving DecidableEq, Repr

/-- The place that a part of a path leads to from a directory. -/
def Place.enter (here : Place) (part : String) : Place :=
  if part == "" || part == "." then here
  else
    match here with
    | inside path =>
      if part != ".." then inside (path ++ [part])
      else if path.isEmpty then above
      else inside path.dropLast
    | above => if part == ".." then above else unknown
    | unknown | nullDevice => unknown

namespace FileTree

/-- The tree of files given by their paths. -/
def ofFiles (files : List (String × String)) : FileTree :=
  ⟨files.map fun f => ((components f.1).filter fun c => c != "" && c != ".", f.2)⟩

def get? (t : FileTree) (path : List String) : Option String := t.files.lookup path

def isDirectory (t : FileTree) (path : List String) : Bool :=
  path.isEmpty || t.files.any fun f => path.isPrefixOf f.1 && path.length < f.1.length

def put (t : FileTree) (path : List String) (text : String) : FileTree :=
  if (t.get? path).isSome then ⟨t.files.map fun f => if f.1 == path then (path, text) else f⟩
  else ⟨t.files ++ [(path, text)]⟩

def look (t : FileTree) : Place → Node
  | .inside path =>
    match t.get? path with
    | some text => .file text
    | none => if t.isDirectory path then .directory else .missing
  | .above => .directory
  | .unknown => .missing
  | .nullDevice => .file ""

/-- Follow the parts of a path; each is looked up in a directory. -/
def walk (t : FileTree) : Place → List String → Except FileError Place
  | here, [] => .ok here
  | here, part :: rest =>
    match t.look here with
    | .file _ => .error .notADirectory
    | .missing => .error .notFound
    | .directory =>
      if maxNameBytes < part.utf8ByteSize then .error .nameTooLong
      else walk t (here.enter part) rest

/-- The parts of a path and the place they start from. -/
def start (path : String) : Except FileError (Place × List String) :=
  if path.isEmpty then .error .notFound
  else if maxPathBytes < path.utf8ByteSize then .error .nameTooLong
  else if path == nullDevice then .ok (.nullDevice, [])
  else .ok (if path.startsWith "/" then .above else .inside [], components path)

def read (t : FileTree) (path : String) : Except FileError String := do
  let (here, parts) ← start path
  match t.look (← t.walk here parts) with
  | .file text => return text
  | .directory => throw .isADirectory
  | .missing => throw .notFound

/-- A path that ends with a slash names a directory, which cannot be written; the directory that it
would be in must be there all the same. -/
def write (t : FileTree) (path text : String) : Except FileError FileTree := do
  let (here, parts) ← start path
  if path.endsWith "/" then
    let named := (parts.reverse.dropWhile (· == "")).reverse
    let _ ← t.walk here (named.dropLast ++ ["."])
    throw .isADirectory
  let place ← t.walk here parts
  if t.look place = .directory then throw .isADirectory
  match place with
  | .inside path => return t.put path text
  | _ => return t

/-- Files as the state of a computation. -/
def access : FileAccess (StateM FileTree) where
  read path := do return (← get).read path
  write path text := do
    match (← get).write path text with
    | .ok t => set t; return .ok ()
    | .error e => return .error e
  isFile path := do
    match (← get).read path with
    | .ok _ => return true
    | .error _ => return false

/-- Files of `t` that are not in `old` or have another text there. -/
def changes (old t : FileTree) : List (List String × String) :=
  t.files.filter fun f => old.get? f.1 != some f.2

end FileTree

end Offload.Files
