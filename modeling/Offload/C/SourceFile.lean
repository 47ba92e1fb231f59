import Offload.C.Function
import Offload.C.Render

/-!
# Modules as source files

Struct types are declared first and defined after the structs they contain; then come prototypes,
globals and functions.
-/

namespace Offload.C

open Offload.Compiled
open Offload.Target

/-- The struct stored by value in a type. -/
def containedStruct? : Ty → Option String
  | .struct name => some name
  | .array _ element => containedStruct? element
  | _ => none

/-- Struct types defined so far, by name. -/
abbrev Defined := List (String × StructDefinition)

/-- Define a struct after those it contains. `visiting` are the structs that contain it; as their
names differ, fuel for one more than all structs is never used up. -/
def defineStruct (m : Module) : Nat → List String → Defined → StructDef → Emit Defined
  | 0, _, _, d => Emit.fail (.containsItself d.name)
  | fuel + 1, visiting, done, d => do
    if d.isOpaque || (done.lookup d.name).isSome then return done
    if visiting.contains d.name then Emit.fail (.containsItself d.name)
    if d.fields.isEmpty then Emit.fail (.noFields d.name)
    let done ← (d.fields.filterMap containedStruct?).foldlM
      (fun done inner =>
        match m.struct? inner with
        | some s => defineStruct m fuel (d.name :: visiting) done s
        | none => Emit.fail (.unknownStruct inner))
      done
    let fields ← d.fields.mapIdxM fun i t => Emit.declare [] t (fieldName i)
    return done ++ [(d.name, ⟨structTag d.name, fields, d.isPacked⟩)]

/-- Attribute the flaws of a step to an entity. -/
def inEntity (name : String) (step : Emit α) : StateT Needs (Except EmitError) α :=
  fun needs => (step.run needs).mapError (⟨name, ·⟩)

/-- All structs of a module, each after those it contains. -/
def defineStructs (m : Module) : StateT Needs (Except EmitError) Defined :=
  m.structs.foldlM
    (fun done d => inEntity d.name (defineStruct m (m.structs.length + 1) [] done d)) []

namespace Writer

variable (w : Writer)

/-- A function's prototype, unless a header or the device declares it. -/
def prototype? (f : Function) : Emit (Option Prototype) := do
  if isIntrinsic f.name then return none
  if f.isDeclaration then
    if w.dialect == .openCl && deviceBuiltins.contains f.name then return none
    if let some header := w.library.header? f.name then
      if w.dialect == .c99 then Emit.needHeader header
      return none
  return some (← w.signature f)

def globalQualifiers (g : Global) : List Qualifier :=
  match w.dialect with
  | .c99 =>
    (if g.init.isNone then [.external] else if g.linkage == .internal then [.static] else []) ++
      (if g.isConstant then [.readOnly] else [])
  | .openCl => [.space (globalSpace g)]

def globalVariable (g : Global) : Emit GlobalVariable := do
  let declaration ← Emit.declare (w.globalQualifiers g) g.type (symbolName g.name)
  match g.init with
  | none => return ⟨declaration, none⟩
  | some v => return ⟨declaration, some (← w.initializer v g.type)⟩

def comments (m : Module) : List String :=
  if w.verbose then
    ["Generated by duet from module '" ++ m.name ++ "' as " ++ w.dialect.name,
      "target triple: " ++ w.triple.render] ++
      (m.dataLayout.map fun l => "data layout: " ++ l).toList ++
      (if w.options.useSoftFloat || w.options.floatAbi == .soft then ["float ABI: soft"] else [])
  else []

def contraction : Contraction :=
  match w.options.fusion with
  | .fast => some true
  | .strict => some false
  | .standard => none

/-- The prototype of the trap function, if the source calls it and the module does not have it. -/
def trapPrototype (m : Module) (needs : Needs) : List Prototype :=
  match w.options.trapFunction with
  | some name =>
    if needs.usesTrap && (m.function? name).isNone then
      [declarationOf [] .void ⟨symbolName name, [], false⟩]
    else []
  | none => []

/-- The parts of a source file, before it is known what they need. -/
def parts (m : Module) : StateT Needs (Except EmitError)
    (Defined × List Prototype × List GlobalVariable × List FunctionDefinition) := do
  let defined ← defineStructs m
  let prototypes ← m.functions.mapM fun f => inEntity f.name (w.prototype? f)
  let globals ← m.globals.mapM fun g => inEntity g.name (w.globalVariable g)
  let functions ← (m.functions.filter fun f => !f.isDeclaration).mapM fun f =>
    inEntity f.name (w.function m f)
  return (defined, prototypes.reduceOption, globals, functions)

def sourceFile (m : Module) : Except EmitError SourceFile := do
  let ((defined, prototypes, globals, functions), needs) ← (w.parts m).run {}
  return {
    dialect := w.dialect
    comments := w.comments m
    headers := Header.all.filter needs.headers.contains
    usesDouble := needs.usesDouble
    contraction := w.contraction
    tags := m.structs.map fun d => structTag d.name
    structs := defined.map (·.2)
    prototypes := prototypes ++ w.trapPrototype m needs
    globals := globals
    functions := functions }

/-- The text of a module as source. -/
def write (m : Module) : Except EmitError String := do return (← w.sourceFile m).render

end Writer

end Offload.C
