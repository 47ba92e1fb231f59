/-!
# Settings of the splitter

How restrictions and dispatch calls are recognised, and how device files are named.
-/

namespace Offload.Split

structure Settings where
  /-- Attribute that carries the list of targets. -/
  marker : String := "amp_restrict"
  /-- Qualified name of the dispatch function. -/
  dispatchFunction : String := "compute::parallel_for_each"
  /-- Header that declares it; not included on the device. -/
  dispatchHeader : String := "ParallelForEach.h"
  /-- Number of arguments of a dispatch call; the last one is the closure. -/
  dispatchArity : Nat := 4
  /-- Appended to a source file's name for its device file. -/
  deviceSuffix : String := ".cl"
deriving DecidableEq, Repr

/-- Parts between `::`, separated from the left. -/
def pathSegments : List Char → List (List Char)
  | [] => [[]]
  | [c] => [[c]]
  | c :: d :: rest =>
    if c = ':' ∧ d = ':' then [] :: pathSegments rest
    else
      match pathSegments (d :: rest) with
      | part :: parts => (c :: part) :: parts
      | [] => [[c]]

namespace Settings

/-- The dispatch function as a path. -/
def dispatchPath (s : Settings) : List String :=
  (pathSegments s.dispatchFunction.toList).map String.ofList

def dispatchNamespace (s : Settings) : List String := s.dispatchPath.dropLast

/-- What stands after the last `::`, found from the right. -/
def dispatchName (s : Settings) : String :=
  match pathSegments s.dispatchFunction.toList.reverse with
  | last :: _ => String.ofList last.reverse
  | [] => s.dispatchFunction

end Settings

end Offload.Split
