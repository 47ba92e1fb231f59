import Offload.C.SourceFile
import Offload.Compiled.Reachable
import Offload.Pipeline.Error
import Offload.Target.DataLayout

/-!
# Passes

A pass works on a module and on what the passes before it have found out. A pipeline is a list of
passes; the first failure ends it, and what was done before stays done.
-/

namespace Offload.Pipeline

open Offload.Compiled
open Offload.Target

/-- A module in a pipeline. -/
structure Work where
  module : Module
  library : Option Library := none
  layout : Option DataLayout := none
  kernels : List String := []
  output : String := ""

inductive Pass where
  | libraryInfo (library : Library)
  | dataLayout (layout : DataLayout)
  | kernelInfo
  | verify
  | dropUnreachable
  | emit (dialect : C.Dialect) (triple : Triple) (options : TargetOptions) (verbose : Bool)

namespace Pass

def name : Pass → String
  | libraryInfo _ => "target-library-info"
  | dataLayout _ => "data-layout"
  | kernelInfo => "kernel-info"
  | verify => "verify"
  | dropUnreachable => "unreachable-block-elim"
  | emit .. => "c-writer"

/-- Entry points of a device module: defined functions without a result, named by the splitter. -/
def kernelsOf (m : Module) : List String :=
  (m.functions.filter fun f =>
    !f.isDeclaration && f.result.isVoid && f.name.startsWith "_Kernel").map (·.name)

def run (p : Pass) (work : Work) : Except BackendError Work :=
  match p with
  | libraryInfo library => .ok { work with library := some library }
  | dataLayout layout =>
    .ok { work with
      layout := some layout
      module := { work.module with dataLayout := some layout.text } }
  | kernelInfo => .ok { work with kernels := kernelsOf work.module }
  | verify =>
    match Compiled.verify work.module with
    | .ok () => .ok work
    | .error e => .error (.verify e)
  | dropUnreachable => .ok { work with module := work.module.dropUnreachable }
  | emit dialect triple options verbose =>
    let writer : C.Writer := {
      dialect := dialect
      triple := triple
      options := options
      verbose := verbose
      library := work.library.getD (.ofTriple triple)
      kernels := work.kernels }
    match writer.write work.module with
    | .ok text => .ok { work with output := work.output ++ text }
    | .error e => .error (.emit e)

end Pass

/-- Run passes in order up to the first failure. -/
def runPasses : List Pass → Work → Except BackendError Unit × Work
  | [], work => (.ok (), work)
  | p :: rest, work =>
    match p.run work with
    | .ok work => runPasses rest work
    | .error e => (.error e, work)

end Offload.Pipeline
