import Offload.Split.Settings
import Offload.Target.Options
import Offload.Toml.Document

/-!
# Settings files

A settings file has a table for the splitter and one for code generation. Every key is optional,
and a key or choice that is not known is an error that lists those that are.
-/

namespace Offload.Config

open Offload.Toml (Value Entries)
open Offload.Target

structure Settings where
  split : Split.Settings := {}
  codegen : CodegenSettings := {}
deriving DecidableEq, Repr

inductive ConfigError where
  /-- The text is no document, or a value is not of the type of its key. -/
  | malformed
  | unknownField (name : String) (known : List String)
  | unknownVariant (name : String) (known : List String)
  | zeroArity
  | emptyName
deriving DecidableEq, Repr

/-- The known names as they are listed in an error. -/
def expectedNames (known : List String) : String :=
  match known.map fun n => "`" ++ n ++ "`" with
  | [] => "there are none"
  | [a] => "expected " ++ a
  | [a, b] => "expected " ++ a ++ " or " ++ b
  | all => "expected one of " ++ ", ".intercalate all

namespace ConfigError

def reason? : ConfigError → Option String
  | malformed => none
  | unknownField name known => some ("unknown field `" ++ name ++ "`, " ++ expectedNames known)
  | unknownVariant name known => some ("unknown variant `" ++ name ++ "`, " ++ expectedNames known)
  | zeroArity => some "dispatch_arity must be at least 1"
  | emptyName => some "attribute and dispatch_function must not be empty"

/-- The message about the file at a path; a malformed file has none of its own. -/
def message? (path : String) (e : ConfigError) : Option String :=
  e.reason?.map fun reason => "invalid config '" ++ path ++ "': " ++ reason

def help? : ConfigError → Option String
  | zeroArity => some "the last dispatch argument is the closure"
  | _ => none

end ConfigError

/-- How the value of a key changes some settings. -/
abbrev Decode (σ : Type) := Value → σ → Except ConfigError σ

namespace Decode

variable {σ : Type}

def text (set : String → σ → σ) : Decode σ
  | .str s, settings => .ok (set s settings)
  | _, _ => .error .malformed

def flag (set : Bool → σ → σ) : Decode σ
  | .bool b, settings => .ok (set b settings)
  | _, _ => .error .malformed

/-- A number that is not negative and below a bound. -/
def number (bound : Nat) (set : Nat → σ → σ) : Decode σ
  | .int v, settings =>
    if 0 ≤ v ∧ v < bound then .ok (set v.toNat settings) else .error .malformed
  | _, _ => .error .malformed

def textItem : Value → Except ConfigError String
  | .str s => .ok s
  | _ => .error .malformed

def texts (set : List String → σ → σ) : Decode σ
  | .array items, settings => do return set (← items.mapM textItem) settings
  | _, _ => .error .malformed

/-- A choice without anything that belongs to it. -/
def isEmptyValue : Value → Bool
  | .array items => items.isEmpty
  | .table _ entries => entries.isEmpty
  | .tables items => items.isEmpty
  | _ => false

/-- The name of a choice: a string, or a table with the choice as its only key. -/
def choiceName : Value → Except ConfigError (String × Bool)
  | .str s => .ok (s, true)
  | .table _ [(name, v)] => .ok (name, isEmptyValue v)
  | _ => .error .malformed

/-- One of a list of choices, by its spelling. -/
def choice (all : List α) (spelling : α → String) (set : α → σ → σ) : Decode σ :=
  fun v settings => do
    let (name, isPlain) ← choiceName v
    match all.find? fun a => spelling a == name with
    | none => .error (.unknownVariant name (all.map spelling))
    | some a => if isPlain then .ok (set a settings) else .error .malformed

/-- The keys of a table with what each does. -/
abbrev Fields (σ : Type) := List (String × Decode σ)

/-- The one key of a date, where a date stands in place of a table. -/
def dateKey : String := "$__toml_private_datetime"

/-- The entries of a table, or of an array that gives the values in the order of the keys. -/
def entriesOf (fields : Fields σ) : Value → Except ConfigError Entries
  | .table _ entries => .ok entries
  | .array items => .ok ((fields.map (·.1)).zip items)
  | .tables items => .ok ((fields.map (·.1)).zip (items.map (.table .explicit)))
  | .datetime => .ok [(dateKey, .datetime)]
  | _ => .error .malformed

def apply (fields : Fields σ) (settings : σ) (entries : Entries) : Except ConfigError σ :=
  entries.foldlM
    (fun settings e =>
      match fields.lookup e.1 with
      | some decode => decode e.2 settings
      | none => .error (.unknownField e.1 (fields.map (·.1))))
    settings

/-- A table within a table. -/
def nested {τ : Type} (fields : Fields τ) (get : σ → τ) (set : τ → σ → σ) : Decode σ :=
  fun v settings => do
    let inner ← apply fields (get settings) (← entriesOf fields v)
    return set inner settings

end Decode

open Decode

def splitFields : Fields Split.Settings :=
  [("attribute", text fun v s => { s with marker := v }),
    ("dispatch_function", text fun v s => { s with dispatchFunction := v }),
    ("dispatch_header", text fun v s => { s with dispatchHeader := v }),
    ("dispatch_arity", number UInt64.size fun v s => { s with dispatchArity := v }),
    ("device_suffix", text fun v s => { s with deviceSuffix := v })]

def optionFields : Fields CodegenOptions :=
  [("float_abi", choice FloatAbi.all FloatAbi.spelling fun v s => { s with floatAbi := v }),
    ("soft_float", flag fun v s => { s with softFloat := v }),
    ("less_precise_fp_mad", flag fun v s => { s with lessPreciseFpMad := v }),
    ("disable_fp_elim", flag fun v s => { s with disableFpElim := v }),
    ("disable_fp_elim_non_leaf", flag fun v s => { s with disableFpElimNonLeaf := v }),
    ("fp_op_fusion", choice Fusion.all Fusion.spelling fun v s => { s with fusion := v }),
    ("unsafe_fp_math", flag fun v s => { s with unsafeFpMath := v }),
    ("no_infs_fp_math", flag fun v s => { s with noInfsFpMath := v }),
    ("no_nans_fp_math", flag fun v s => { s with noNansFpMath := v }),
    ("honor_sign_dependent_rounding", flag fun v s => { s with honorSignDependentRounding := v }),
    ("no_zeros_in_bss", flag fun v s => { s with noZerosInBss := v }),
    ("guaranteed_tail_call_opt", flag fun v s => { s with guaranteedTailCallOpt := v }),
    ("disable_tail_calls", flag fun v s => { s with disableTailCalls := v }),
    ("stack_alignment_override", number UInt32.size fun v s => { s with stackAlignmentOverride := v }),
    ("realign_stack", flag fun v s => { s with realignStack := v }),
    ("trap_function", text fun v s => { s with trapFunction := some v }),
    ("pie", flag fun v s => { s with pie := v }),
    ("segmented_stacks", flag fun v s => { s with segmentedStacks := v }),
    ("use_init_array", flag fun v s => { s with useInitArray := v }),
    ("ssp_buffer_size", number UInt32.size fun v s => { s with sspBufferSize := v }),
    ("reloc_model",
      choice RelocModel.all RelocModel.spelling fun v s => { s with relocModel := v }),
    ("code_model", choice CodeModel.all CodeModel.spelling fun v s => { s with codeModel := v }),
    ("cpu", text fun v s => { s with cpu := v }),
    ("features", texts fun v s => { s with features := v }),
    ("opt_level", choice OptLevel.all OptLevel.spelling fun v s => { s with optLevel := v }),
    ("relax_all", flag fun v s => { s with relaxAll := v }),
    ("disable_verify", flag fun v s => { s with disableVerify := v }),
    ("verbose", flag fun v s => { s with verbose := v })]

def codegenFields : Fields CodegenSettings :=
  [("backend", text fun v s => { s with backend := v }),
    ("triple", text fun v s => { s with triple := some v }),
    ("file_type", choice FileType.all FileType.spelling fun v s => { s with fileType := v }),
    ("options", nested optionFields (·.options) fun v s => { s with options := v })]

def fields : Fields Settings :=
  [("rewrite", nested splitFields (·.split) fun v s => { s with split := v }),
    ("codegen", nested codegenFields (·.codegen) fun v s => { s with codegen := v })]

/-- There must be a closure argument, and names to recognise. -/
def validate (s : Settings) : Except ConfigError Settings :=
  if s.split.dispatchArity = 0 then .error .zeroArity
  else if s.split.marker.isEmpty || s.split.dispatchName.isEmpty then .error .emptyName
  else .ok s

def parse (content : String) : Except ConfigError Settings := do
  match Toml.parse? content with
  | none => .error .malformed
  | some entries => validate (← apply fields {} entries)

end Offload.Config
