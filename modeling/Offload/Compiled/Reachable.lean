import Offload.Compiled.Module

/-!
# Unreachable blocks

Blocks that no path from the first block leads to are dropped, and so are the incoming values of
phis that came from them.
-/

namespace Offload.Compiled

namespace Function

/-- Labels that control can go to from a block of the given label. -/
def successorsOf (f : Function) (label : String) : List String :=
  match (f.block? label).bind (·.terminator) with
  | some t => t.successors
  | none => []

/-- Labels found from a list of labels still to visit. -/
def visit (f : Function) : Nat → List String → List String → List String
  | 0, seen, _ => seen
  | _ + 1, seen, [] => seen
  | fuel + 1, seen, label :: work =>
    if seen.contains label then visit f fuel seen work
    else visit f fuel (label :: seen) (f.successorsOf label ++ work)

/-- Every label is expanded once, so there are no more visits than branch targets, and one for the
first block. -/
def visits (f : Function) : Nat :=
  (f.blocks.flatMap fun b => (b.terminator.map (·.successors)).getD []).length + 2

def reachable (f : Function) : List String :=
  visit f f.visits [] ((f.blocks.head?.map (·.label)).toList)

end Function

/-- Drop the incoming values of other labels. -/
def Instruction.restrictPhi (labels : List String) : Instruction → Instruction
  | .phi dest t incoming => .phi dest t (incoming.filter fun e => labels.contains e.2)
  | i => i

def Function.dropUnreachable (f : Function) : Function :=
  let labels := f.reachable
  { f with
    blocks := (f.blocks.filter fun b => labels.contains b.label).map fun b =>
      { b with instructions := b.instructions.map (·.restrictPhi labels) } }

def Module.dropUnreachable (m : Module) : Module :=
  { m with functions := m.functions.map (·.dropUnreachable) }

end Offload.Compiled
