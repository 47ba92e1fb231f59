/-!
# Code generation options

The switches of the settings, and the options that a machine works with. Each choice has the
spelling it has in a settings file.
-/

namespace Offload.Target

inductive FloatAbi where
  | default | soft | hard
deriving DecidableEq, Repr

namespace FloatAbi

def all : List FloatAbi := [default, soft, hard]

def spelling : FloatAbi → String
  | default => "default"
  | soft => "soft"
  | hard => "hard"

end FloatAbi

/-- Whether floating-point operations may be contracted. -/
inductive Fusion where
  | fast | standard | strict
deriving DecidableEq, Repr

namespace Fusion

def all : List Fusion := [fast, standard, strict]

def spelling : Fusion → String
  | fast => "fast"
  | standard => "standard"
  | strict => "strict"

end Fusion

inductive RelocModel where
  | default | static | pic | dynamicNoPic
deriving DecidableEq, Repr

namespace RelocModel

def all : List RelocModel := [default, static, pic, dynamicNoPic]

def spelling : RelocModel → String
  | default => "default"
  | static => "static"
  | pic => "pic"
  | dynamicNoPic => "dynamic-no-pic"

end RelocModel

inductive CodeModel where
  | default | small | kernel | medium | large
deriving DecidableEq, Repr

namespace CodeModel

def all : List CodeModel := [default, small, kernel, medium, large]

def spelling : CodeModel → String
  | default => "default"
  | small => "small"
  | kernel => "kernel"
  | medium => "medium"
  | large => "large"

end CodeModel

inductive OptLevel where
  | none | less | default | aggressive
deriving DecidableEq, Repr

namespace OptLevel

def all : List OptLevel := [none, less, default, aggressive]

def spelling : OptLevel → String
  | none => "none"
  | less => "less"
  | default => "default"
  | aggressive => "aggressive"

end OptLevel

/-- What the last pass produces; `asm` is text. -/
inductive FileType where
  | asm | obj | null
deriving DecidableEq, Repr

namespace FileType

def all : List FileType := [asm, obj, null]

def spelling : FileType → String
  | asm => "asm"
  | obj => "obj"
  | null => "null"

end FileType

/-- The switches of the settings. -/
structure CodegenOptions where
  floatAbi : FloatAbi := .default
  softFloat : Bool := false
  lessPreciseFpMad : Bool := false
  disableFpElim : Bool := false
  disableFpElimNonLeaf : Bool := false
  fusion : Fusion := .standard
  unsafeFpMath : Bool := false
  noInfsFpMath : Bool := false
  noNansFpMath : Bool := false
  honorSignDependentRounding : Bool := false
  noZerosInBss : Bool := false
  guaranteedTailCallOpt : Bool := false
  disableTailCalls : Bool := false
  stackAlignmentOverride : Nat := 0
  realignStack : Bool := true
  trapFunction : Option String := none
  pie : Bool := false
  segmentedStacks : Bool := false
  useInitArray : Bool := false
  sspBufferSize : Nat := 8
  relocModel : RelocModel := .default
  codeModel : CodeModel := .default
  cpu : String := ""
  features : List String := []
  optLevel : OptLevel := .default
  relaxAll : Bool := false
  disableVerify : Bool := false
  verbose : Bool := true
deriving DecidableEq, Repr

/-- The options of a machine. -/
structure TargetOptions where
  floatAbi : FloatAbi
  useSoftFloat : Bool
  lessPreciseFpMad : Bool
  noFramePointerElim : Bool
  noFramePointerElimNonLeaf : Bool
  fusion : Fusion
  unsafeFpMath : Bool
  noInfsFpMath : Bool
  noNansFpMath : Bool
  honorSignDependentRounding : Bool
  noZerosInBss : Bool
  guaranteedTailCallOpt : Bool
  disableTailCalls : Bool
  stackAlignmentOverride : Nat
  realignStack : Bool
  trapFunction : Option String
  positionIndependent : Bool
  segmentedStacks : Bool
  useInitArray : Bool
  sspBufferSize : Nat
deriving DecidableEq, Repr

def TargetOptions.ofCodegen (o : CodegenOptions) : TargetOptions where
  floatAbi := o.floatAbi
  useSoftFloat := o.softFloat
  lessPreciseFpMad := o.lessPreciseFpMad
  noFramePointerElim := o.disableFpElim
  noFramePointerElimNonLeaf := o.disableFpElimNonLeaf
  fusion := o.fusion
  unsafeFpMath := o.unsafeFpMath
  noInfsFpMath := o.noInfsFpMath
  noNansFpMath := o.noNansFpMath
  honorSignDependentRounding := o.honorSignDependentRounding
  noZerosInBss := o.noZerosInBss
  guaranteedTailCallOpt := o.guaranteedTailCallOpt
  disableTailCalls := o.disableTailCalls
  stackAlignmentOverride := o.stackAlignmentOverride
  realignStack := o.realignStack
  trapFunction := o.trapFunction
  positionIndependent := o.pie
  segmentedStacks := o.segmentedStacks
  useInitArray := o.useInitArray
  sspBufferSize := o.sspBufferSize

/-- How a module is turned into source. -/
structure CodegenSettings where
  backend : String := "c"
  triple : Option String := none
  fileType : FileType := .asm
  options : CodegenOptions := {}
deriving DecidableEq, Repr

end Offload.Target
