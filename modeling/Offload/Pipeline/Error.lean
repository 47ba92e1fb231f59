import Offload.C.Emit
import Offload.Compiled.Verify

/-!
# Errors of regeneration

The steps of regenerating source from a module, the stages between them, and what a step can fail
with.
-/

namespace Offload.Pipeline

open Offload.Target

/-- How far a session has come. -/
inductive Stage where
  | uninitialized
  | targetsRegistered
  | passesRegistered
  | tripleResolved
  | optionsConfigured
  | machineCreated
  | pipelineBuilt
  | ran
  | done
deriving DecidableEq, Repr

namespace Stage

def name : Stage → String
  | uninitialized => "uninitialized"
  | targetsRegistered => "targets-registered"
  | passesRegistered => "passes-registered"
  | tripleResolved => "triple-resolved"
  | optionsConfigured => "options-configured"
  | machineCreated => "machine-created"
  | pipelineBuilt => "pipeline-built"
  | ran => "ran"
  | done => "done"

end Stage

inductive Step where
  | initializeTargets
  | initializePasses
  | resolveTriple
  | configureOptions
  | createMachine
  | buildPipeline
  | run
  | finish
deriving DecidableEq, Repr

namespace Step

/-- All steps, in the only order in which they succeed. -/
def all : List Step :=
  [initializeTargets, initializePasses, resolveTriple, configureOptions, createMachine,
    buildPipeline, run, finish]

def name : Step → String
  | initializeTargets => "initialize-targets"
  | initializePasses => "initialize-passes"
  | resolveTriple => "resolve-triple"
  | configureOptions => "configure-options"
  | createMachine => "create-machine"
  | buildPipeline => "build-pipeline"
  | run => "run"
  | finish => "finish"

/-- The stage in which a step can be taken. -/
def before : Step → Stage
  | initializeTargets => .uninitialized
  | initializePasses => .targetsRegistered
  | resolveTriple => .passesRegistered
  | configureOptions => .tripleResolved
  | createMachine => .optionsConfigured
  | buildPipeline => .machineCreated
  | run => .pipelineBuilt
  | finish => .ran

/-- The stage that a step leads to. -/
def after : Step → Stage
  | initializeTargets => .targetsRegistered
  | initializePasses => .passesRegistered
  | resolveTriple => .tripleResolved
  | configureOptions => .optionsConfigured
  | createMachine => .machineCreated
  | buildPipeline => .pipelineBuilt
  | run => .ran
  | finish => .done

end Step

inductive BackendError where
  | unknownTarget (name : String) (available : List String)
  | unsupportedFileType (target : String) (fileType : FileType)
  | invalidTriple (text : String)
  | unknownPass (name : String)
  | verify (e : Compiled.VerifyError)
  | emit (e : C.EmitError)
  | outOfOrder (step : Step) (stage : Stage)
deriving Repr

def BackendError.message : BackendError → String
  | unknownTarget name available =>
    "no registered target named '" ++ name ++ "' (available: " ++ ", ".intercalate available ++ ")"
  | unsupportedFileType target fileType =>
    "target '" ++ target ++ "' does not support generation of this file type (" ++
      fileType.spelling ++ ")"
  | invalidTriple text => "invalid target triple '" ++ text ++ "'"
  | unknownPass name => "no registered pass named '" ++ name ++ "'"
  | verify e => "module verification failed: " ++ e.message
  | emit e => e.message
  | outOfOrder step stage =>
    "regeneration step '" ++ step.name ++ "' attempted in state " ++ stage.name

/-- A triple or the error that it is none. -/
def parseTriple (text : String) : Except BackendError Triple :=
  match Triple.parse? text with
  | some t => .ok t
  | none => .error (.invalidTriple text)

end Offload.Pipeline
