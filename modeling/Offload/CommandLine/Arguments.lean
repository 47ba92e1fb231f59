/-!
# Command line arguments

One of three commands with its operand and options. Options may stand before or after the operand;
after `--` everything is an operand.
-/

namespace Offload.CommandLine

inductive Command where
  | split (input : String) (hostOut deviceOut config : Option String)
  | regenerate (module : String) (output backend triple config : Option String)
  | targets
deriving DecidableEq, Repr

inductive Request where
  | version
  | run (c : Command)
  /-- The arguments are none of the above. -/
  | invalid
deriving DecidableEq, Repr

/-- An option that takes a value. -/
structure OptionSpec where
  name : String
  short : Option Char := none
  /-- A path must not be empty. -/
  isPath : Bool := true

/-- What a command accepts besides the verbose flag. -/
structure CommandSpec where
  name : String
  operands : Nat
  options : List OptionSpec

def splitSpec : CommandSpec :=
  ⟨"split", 1, [{ name := "cpu-out" }, { name := "gpu-out" }, { name := "config" }]⟩

def regenerateSpec : CommandSpec :=
  ⟨"regen", 1, [{ name := "output", short := some 'o' }, { name := "backend", isPath := false },
    { name := "triple", isPath := false }, { name := "config" }]⟩

def targetsSpec : CommandSpec := ⟨"targets", 0, []⟩

/-- Arguments read so far. -/
structure Arguments where
  verbose : Bool := false
  operands : List String := []
  values : List (String × String) := []

namespace Arguments

def value? (a : Arguments) (name : String) : Option String := a.values.lookup name

/-- The verbose flag can be given once. -/
def setVerbose (a : Arguments) : Option Arguments :=
  if a.verbose then none else some { a with verbose := true }

/-- An option can be given once. -/
def setValue (a : Arguments) (o : OptionSpec) (v : String) : Option Arguments :=
  if (a.value? o.name).isSome || (o.isPath && v.isEmpty) then none
  else some { a with values := a.values ++ [(o.name, v)] }

def addOperand (spec : CommandSpec) (a : Arguments) (v : String) : Option Arguments :=
  if a.operands.length < spec.operands && !v.isEmpty then
    some { a with operands := a.operands ++ [v] }
  else none

end Arguments

/-- An argument that starts an option or ends them. -/
def isDashed (arg : String) : Bool := arg.startsWith "-" && arg != "-"

/-- A long option's name and the value after an equals sign. -/
def splitLong (cs : List Char) : String × Option String :=
  let name := cs.takeWhile (· != '=')
  (String.ofList name,
    if name.length < cs.length then some (String.ofList (cs.drop (name.length + 1))) else none)

/-- What an argument asks for: the arguments with it taken in, and the option whose value must
follow. -/
abbrev Taken := Arguments × Option OptionSpec

def takeLong (spec : CommandSpec) (a : Arguments) (cs : List Char) : Option Taken :=
  let (name, value) := splitLong cs
  if name == "verbose" then
    if value.isSome then none else a.setVerbose.map (·, none)
  else do
    let o ← spec.options.find? (·.name == name)
    match value with
    | some v => return (← a.setValue o v, none)
    | none => return (a, some o)

/-- A group of one-letter options; one that takes a value takes the rest of the group for it. -/
def takeShort (spec : CommandSpec) (a : Arguments) : List Char → Option Taken
  | [] => some (a, none)
  | 'v' :: rest => do takeShort spec (← a.setVerbose) rest
  | c :: rest => do
    let o ← spec.options.find? (·.short == some c)
    match rest with
    | [] => return (a, some o)
    | '=' :: v => return (← a.setValue o (String.ofList v), none)
    | v => return (← a.setValue o (String.ofList v), none)

/-- The arguments after a command's name. -/
def takeAll (spec : CommandSpec) : Arguments → List String → Option Arguments
  | a, [] => some a
  | a, "--" :: rest => rest.foldlM (Arguments.addOperand spec) a
  | a, [arg] => do
    let (a, pending) ← takeOne a arg
    if pending.isSome then none else some a
  | a, arg :: next :: rest => do
    let (a, pending) ← takeOne a arg
    match pending with
    | none => takeAll spec a (next :: rest)
    | some o => if isDashed next then none else takeAll spec (← a.setValue o next) rest
where
  takeOne (a : Arguments) (arg : String) : Option Taken :=
    match arg.toList with
    | '-' :: '-' :: cs => takeLong spec a cs
    | '-' :: c :: cs => takeShort spec a (c :: cs)
    | _ => (a.addOperand spec arg).map (·, none)

def ofSpec (spec : CommandSpec) (make : Arguments → Option Command) (args : List String) :
    Request :=
  match (takeAll spec {} args).bind make with
  | some c => .run c
  | none => .invalid

/-- The command of a name, with its arguments. -/
def parseCommand (name : String) (args : List String) : Request :=
  match name with
  | "split" => ofSpec splitSpec
      (fun a => do
        return .split (← a.operands.head?) (a.value? "cpu-out") (a.value? "gpu-out")
          (a.value? "config"))
      args
  | "regen" => ofSpec regenerateSpec
      (fun a => do
        return .regenerate (← a.operands.head?) (a.value? "output") (a.value? "backend")
          (a.value? "triple") (a.value? "config"))
      args
  | "targets" => ofSpec targetsSpec (fun _ => some .targets) args
  | _ => .invalid

/-- A group of one-letter flags ahead of the command: the verbose flag once, or a request for the
version. -/
def takeFlags : Bool → List Char → Option (Bool ⊕ Unit)
  | verbose, [] => some (.inl verbose)
  | verbose, 'v' :: rest => if verbose then none else takeFlags true rest
  | _, 'V' :: _ => some (.inr ())
  | _, _ => none

def parseFrom : Bool → List String → Request
  | _, [] => .invalid
  | verbose, arg :: rest =>
    match arg.toList with
    | '-' :: '-' :: cs =>
      match String.ofList cs with
      | "version" => .version
      | "verbose" => if verbose then .invalid else parseFrom true rest
      | _ => .invalid
    | '-' :: c :: cs =>
      match takeFlags verbose (c :: cs) with
      | some (.inl verbose) => parseFrom verbose rest
      | some (.inr ()) => .version
      | none => .invalid
    | _ => parseCommand arg rest

def parseArguments (args : List String) : Request := parseFrom false args

end Offload.CommandLine
