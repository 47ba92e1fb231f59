import Offload.Pipeline.Registry

/-!
# Sessions

A session takes a module through the steps of regeneration. A step out of order changes nothing; a
pipeline that fails is used up, and what its passes did before stays done.
-/

namespace Offload.Pipeline

open Offload.Compiled
open Offload.Target

/-- A code generator for one triple. -/
structure Machine where
  target : TargetEntry
  triple : Triple
  options : TargetOptions
  verbose : Bool

namespace Machine

/-- The layout that the machine insists on: portable source leaves it to the module. -/
def dataLayout? (m : Machine) : Option DataLayout :=
  match m.target.dialect with
  | .c99 => none
  | .openCl => some (.ofTriple m.triple)

def analysisPasses (m : Machine) : List Pass :=
  match m.target.dialect with
  | .c99 => []
  | .openCl => [.kernelInfo]

/-- Passes that produce a file of some type; only text can be produced. -/
def emissionPasses (m : Machine) (fileType : FileType) (disableVerify : Bool) :
    Except BackendError (List Pass) :=
  if fileType = .asm then
    .ok ((if disableVerify then [] else [.verify]) ++
      [.dropUnreachable, .emit m.target.dialect m.triple m.options m.verbose])
  else .error (.unsupportedFileType m.target.name fileType)

end Machine

structure Session where
  settings : CodegenSettings
  stage : Stage
  work : Work
  triple : Option Triple
  options : Option TargetOptions
  machine : Option Machine
  /-- Passes that have not been run. -/
  pipeline : List Pass
  warnings : List String

namespace Session

def start (settings : CodegenSettings) (m : Module) : Session :=
  ⟨settings, .uninitialized, { module := m }, none, none, none, [], []⟩

/-- The triple of the settings, else the module's; a blank one counts as none, and then the host's
is taken. -/
def requestedTriple (s : Session) : Except BackendError Triple :=
  match (s.settings.triple.or s.work.module.triple).filter fun t => !t.toList.all Text.isBlank with
  | some text => parseTriple text
  | none => .ok .host

def resolveTriple (s : Session) : Except BackendError Session := do
  let triple ← s.requestedTriple
  return { s with
    triple := some triple
    work := { s.work with module := { s.work.module with triple := some triple.render } } }

/-- Soft floating point implies the soft calling convention. -/
def targetOptions (o : CodegenOptions) : TargetOptions :=
  let options := TargetOptions.ofCodegen o
  if o.softFloat then { options with floatAbi := .soft } else options

def relaxAllWarning : String := "ignoring relax-all because the file type is not obj"

def configureOptions (s : Session) : Session :=
  let o := s.settings.options
  { s with
    options := some (targetOptions o)
    warnings := s.warnings ++
      (if o.relaxAll && s.settings.fileType != .obj then [relaxAllWarning] else []) }

def createMachine (s : Session) : Except BackendError Session := do
  let target ← lookupTarget s.settings.backend
  match s.triple, s.options with
  | some triple, some options =>
    return { s with machine := some ⟨target, triple, options, s.settings.options.verbose⟩ }
  | _, _ => .error (.outOfOrder .createMachine s.stage)

/-- The machine's own layout, else the module's, else one for the triple. -/
def dataLayout (s : Session) (m : Machine) (triple : Triple) : DataLayout :=
  (m.dataLayout?.or (s.work.module.dataLayout.map .parse)).getD (.ofTriple triple)

def buildPipeline (s : Session) : Except BackendError Session := do
  match s.machine, s.triple with
  | some machine, some triple =>
    let emission ← machine.emissionPasses s.settings.fileType s.settings.options.disableVerify
    return { s with
      pipeline := .libraryInfo (.ofTriple triple) :: machine.analysisPasses ++
        [.dataLayout (s.dataLayout machine triple)] ++ emission }
  | _, _ => .error (.outOfOrder .buildPipeline s.stage)

/-- Run the pipeline; it is used up also if a pass fails. -/
def runPipeline (s : Session) : Except BackendError Unit × Session :=
  let (result, work) := runPasses s.pipeline s.work
  (result, { s with pipeline := [], work := work })

/-- Hand over the text. -/
def takeOutput (s : Session) : String × Session :=
  (s.work.output, { s with work := { s.work with output := "" } })

/-- What a step does in its own stage; only the last step has a text. -/
def perform (step : Step) (s : Session) : Except BackendError (Option String) × Session :=
  let keep (r : Except BackendError Session) : Except BackendError (Option String) × Session :=
    match r with
    | .ok s' => (.ok none, s')
    | .error e => (.error e, s)
  match step with
  | .initializeTargets | .initializePasses => (.ok none, s)
  | .resolveTriple => keep s.resolveTriple
  | .configureOptions => (.ok none, s.configureOptions)
  | .createMachine => keep s.createMachine
  | .buildPipeline => keep s.buildPipeline
  | .run =>
    let (result, s) := s.runPipeline
    (result.map fun () => none, s)
  | .finish =>
    let (text, s) := s.takeOutput
    (.ok (some text), s)

/-- Take a step: only in its own stage, and the stage moves on only if the step succeeds. -/
def take (step : Step) (s : Session) : Except BackendError (Option String) × Session :=
  if s.stage = step.before then
    match s.perform step with
    | (.ok text, s') => (.ok text, { s' with stage := step.after })
    | (.error e, s') => (.error e, s')
  else (.error (.outOfOrder step s.stage), s)

/-- Take steps in order up to the first failure; the text is that of the last step. -/
def takeAll (steps : List Step) (s : Session) : Except BackendError (Option String × Session) :=
  steps.foldlM
    (fun state step =>
      match state.2.take step with
      | (.ok text, s) => .ok (text, s)
      | (.error e, _) => .error e)
    (none, s)

end Session

/-- Regenerate source from a module: all steps in order. -/
def regenerate (settings : CodegenSettings) (m : Module) : Except BackendError String := do
  let (text, _) ← (Session.start settings m).takeAll Step.all
  return text.getD ""

end Offload.Pipeline
