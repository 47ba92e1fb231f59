/-!
# Names in generated source

Every name of a module is turned into an identifier of its kind: a character that cannot stand in an
identifier becomes an underscore.
-/

namespace Offload.C

def isIdentChar (c : Char) : Bool := c.isAlphanum || c == '_'

def identOf (name : String) : String :=
  String.ofList (name.toList.map fun c => if isIdentChar c then c else '_')

/-- A parameter or the result of an instruction. -/
def localName (name : String) : String := "v_" ++ identOf name

/-- A global or function; an identifier cannot start with a digit. -/
def symbolName (name : String) : String :=
  let s := identOf name
  if (s.toList.head?.map Char.isDigit).getD false then "g_" ++ s else s

def blockName (label : String) : String := "bb_" ++ identOf label

def structTag (name : String) : String := identOf name

/-- The temporary that the predecessors of a phi's block assign. -/
def phiName (dest : String) : String := localName dest ++ "__phi"

/-- The variable that an allocation points to. -/
def slotName (dest : String) : String := localName dest ++ "__slot"

def fieldName (index : Nat) : String := "f" ++ toString index

end Offload.C
