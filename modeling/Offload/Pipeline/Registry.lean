import Offload.Pipeline.Pass

/-!
# Targets and passes by name
-/

namespace Offload.Pipeline

open Offload.Target

/-- A kind of source that can be generated. -/
structure TargetEntry where
  name : String
  description : String
  dialect : C.Dialect
deriving Repr

def targets : List TargetEntry :=
  [⟨"c", "portable C99 source", .c99⟩, ⟨"opencl", "OpenCL C device source", .openCl⟩]

def targetNames : List String := targets.map (·.name)

def lookupTarget (name : String) : Except BackendError TargetEntry :=
  match targets.find? (·.name == name) with
  | some t => .ok t
  | none => .error (.unknownTarget name targetNames)

inductive PassKind where
  /-- Finds out facts for later passes. -/
  | analysis
  | transform
  | emission
deriving DecidableEq, Repr

def PassKind.name : PassKind → String
  | analysis => "analysis"
  | transform => "transform"
  | emission => "emission"

structure PassInfo where
  name : String
  description : String
  kind : PassKind
  /-- The pass itself, if it needs no configuration. -/
  pass : Option Pass

def passes : List PassInfo :=
  [⟨"verify", "module well-formedness checks", .analysis, some .verify⟩,
    ⟨"target-library-info", "library functions provided by the target", .analysis, none⟩,
    ⟨"data-layout", "target data layout", .analysis, none⟩,
    ⟨"kernel-info", "device entry point discovery", .analysis, some .kernelInfo⟩,
    ⟨"unreachable-block-elim", "remove blocks unreachable from the entry", .transform,
      some .dropUnreachable⟩,
    ⟨"c-writer", "C99 / OpenCL C source emission", .emission, none⟩]

def passInfo? (name : String) : Option PassInfo := passes.find? (·.name == name)

/-- A pass that needs no configuration, by its name. -/
def createPass (name : String) : Except BackendError Pass :=
  match (passInfo? name).bind (·.pass) with
  | some p => .ok p
  | none => .error (.unknownPass name)

end Offload.Pipeline
