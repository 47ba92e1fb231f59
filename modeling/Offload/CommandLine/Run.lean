import Offload.CommandLine.Arguments
import Offload.Compiled.ReadModule
import Offload.Config.Settings
import Offload.Files.Access
import Offload.Files.Path
import Offload.Pipeline.Session
import Offload.Split.Document

/-!
# Running commands

What the program does for its arguments, over any access to files.
-/

namespace Offload.CommandLine

open Offload.Files

/-- What a run leaves besides the files it wrote. -/
structure Outcome where
  code : UInt32
  stdout : String := ""
  /-- Lines about the run as a whole. -/
  messages : List String := []
  /-- Lines about single places in the input. -/
  notes : List String := []

inductive Failure where
  | usage
  | config (note : Option String)
  | file (path : String) (e : FileError)
  | split (e : Split.SplitError)
  | read (e : Compiled.ReadError)
  | backend (e : Pipeline.BackendError)

namespace Failure

/-- The exit code of an inconsistency within the program. -/
def internalCode : UInt32 := 70

def code : Failure → UInt32
  | usage => 2
  | split _ => internalCode
  | config _ | file .. | read _ | backend _ => 1

def message? : Failure → Option String
  | usage | config _ => none
  | file path e => some ("I/O error on '" ++ path ++ "': " ++ e.message)
  | split e => some e.message
  | read e => some ("cannot read module: " ++ e.message)
  | backend e => some e.message

def usageText : String :=
  "usage: duet [-v] split INPUT [--cpu-out P] [--gpu-out P] [--config P]\n" ++
    "       duet [-v] regen MODULE [-o P] [--backend N] [--triple T] [--config P]\n" ++
    "       duet [-v] targets\n       duet --version"

def notes : Failure → List String
  | usage => [usageText]
  | config note => note.toList
  | _ => []

def outcome (f : Failure) : Outcome :=
  { code := f.code, messages := f.message?.toList.map ("error: " ++ ·), notes := f.notes }

end Failure

/-- Text filled up with spaces on the right. -/
def padRight (width : Nat) (s : String) : String :=
  s ++ String.ofList (List.replicate (width - s.length) ' ')

def targetsText : String :=
  let backend (t : Pipeline.TargetEntry) : String :=
    "  " ++ padRight 10 t.name ++ " " ++ t.description ++ "\n"
  let pass (p : Pipeline.PassInfo) : String :=
    "  " ++ padRight 24 p.name ++ " " ++ p.description ++ "\n"
  "Backends:\n" ++ String.join (Pipeline.targets.map backend) ++ "Passes:\n" ++
    String.join (Pipeline.passes.map pass)

def versionText : String := "duet 0.1.0\n"

/-- The settings file that is used if none is named. -/
def defaultConfig : String := "duet.toml"

variable {m : Type → Type} [Monad m] (fs : FileAccess m)

def readFile (path : String) : ExceptT Failure m String := do
  match ← fs.read path with
  | .ok text => return text
  | .error e => throw (.file path e)

def writeFile (path text : String) : ExceptT Failure m Unit := do
  match ← fs.write path text with
  | .ok () => return ()
  | .error e => throw (.file path e)

def loadConfig (path : String) : ExceptT Failure m Config.Settings := do
  match ← fs.read path with
  | .error e =>
    throw (.config (some ("cannot read config '" ++ path ++ "': " ++ e.message)))
  | .ok text =>
    match Config.parse text with
    | .ok s => return s
    | .error e => throw (.config (e.message? path))

/-- The settings of the file that is named, else of the default file if it is there. -/
def settings (config : Option String) : ExceptT Failure m Config.Settings := do
  match config with
  | some path => loadConfig fs path
  | none => if ← fs.isFile defaultConfig then loadConfig fs defaultConfig else return {}

def runSplit (input : String) (hostOut deviceOut config : Option String) :
    ExceptT Failure m Outcome := do
  let settings ← settings fs config
  let text ← readFile fs input
  let doc := Document.ofText input text
  match Split.splitDocument settings.split doc with
  | .error e => throw (.split e)
  | .ok output =>
    let hostPath := hostOut.getD (markedSibling "cpu" input)
    let devicePath := deviceOut.getD (Split.deviceFile settings.split doc)
    writeFile fs hostPath output.host
    writeFile fs devicePath output.device
    return {
      code := if output.hasErrors then 1 else 0
      messages := ["split " ++ input ++ " -> " ++ hostPath ++ " (cpu), " ++ devicePath ++
        " (gpu), " ++ toString output.kernels.length ++ " kernel(s)"]
      notes := output.diagnostics.map fun d => d.summary doc }

def runRegenerate (module : String) (output backend triple config : Option String) :
    ExceptT Failure m Outcome := do
  let settings ← settings fs config
  let codegen := { settings.codegen with
    backend := backend.getD settings.codegen.backend
    triple := triple.or settings.codegen.triple }
  let text ← readFile fs module
  match Compiled.readModule ((fileName? module).getD module) text with
  | .error e => throw (.read e)
  | .ok m =>
    match Pipeline.regenerate codegen m with
    | .error e => throw (.backend e)
    | .ok source =>
      match output with
      | some path =>
        writeFile fs path source
        return { code := 0, messages := ["wrote " ++ path] }
      | none => return { code := 0, stdout := source }

def runCommand (c : Command) : ExceptT Failure m Outcome :=
  match c with
  | .split input hostOut deviceOut config => runSplit fs input hostOut deviceOut config
  | .regenerate module output backend triple config =>
    runRegenerate fs module output backend triple config
  | .targets => return { code := 0, stdout := targetsText }

/-- Run the program on its arguments. -/
def run (args : List String) : m Outcome := do
  match parseArguments args with
  | .version => return { code := 0, stdout := versionText }
  | .invalid => return Failure.usage.outcome
  | .run c =>
    match ← (runCommand fs c).run with
    | .ok o => return o
    | .error f => return f.outcome

end Offload.CommandLine
