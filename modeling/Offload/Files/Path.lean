import Offload.Text.Blank

/-!
# Paths

The parts of a path between slashes, its file name, and the name of a file beside another.
-/

namespace Offload.Files

def components (path : String) : List String :=
  (Text.splitOnChar '/' path.toList).map String.ofList

/-- How many bytes a part of a path may have. -/
def maxNameBytes : Nat := 255

/-- How many bytes a path may have. -/
def maxPathBytes : Nat := 4095

/-- The file that is always empty and drops what is written to it. -/
def nullDevice : String := "/dev/null"

/-- Drop empty parts and single dots from the end, but keep the first part. -/
def trimTail : List String → List String
  | [] => []
  | [first] => [first]
  | first :: rest => first :: (rest.reverse.dropWhile fun c => c == "" || c == ".").reverse

/-- The last part of a path, unless the path ends in a directory's dots or is a root. -/
def fileName? (path : String) : Option String :=
  (trimTail (components path)).getLast?.filter fun c => c != "" && c != "." && c != ".."

/-- The path of a file of another name in the same directory; a path without a file name is the
directory itself. -/
def sibling (path name : String) : String :=
  if (fileName? path).isSome then
    "/".intercalate (trimTail (trimTail (components path)).dropLast ++ [name])
  else if path.isEmpty || path.endsWith "/" then path ++ name
  else path ++ "/" ++ name

/-- A file name as its stem and extension; a dot at its start does not separate them. -/
def stemExtension (name : String) : String × Option String :=
  let cs := name.toList
  let after := (cs.reverse.takeWhile (· != '.')).reverse
  let before := cs.take (cs.length - after.length - 1)
  if after.length = cs.length || before.isEmpty then (name, none)
  else (String.ofList before, some (String.ofList after))

/-- Put a mark between the stem and the extension of a path's file name. -/
def markedSibling (mark path : String) : String :=
  let (stem, ext) := stemExtension ((fileName? path).getD "")
  let name := match ext with
    | some e => stem ++ "." ++ mark ++ "." ++ e
    | none => stem ++ "." ++ mark
  sibling path name

end Offload.Files
