import Offload.Compiled.ReadInstruction

/-!
# Reading modules

Struct types, globals, declarations and definitions, in any order. Metadata, attribute groups,
comdats and debug records are skipped.
-/

namespace Offload.Compiled

/-- Label of a first block that is written without one. -/
def entryLabel : String := "entry"

/-- Replace one label by another in all branches and phis. -/
def BasicBlock.renameLabel (source target : String) (b : BasicBlock) : BasicBlock :=
  let f (l : String) : String := if l == source then target else l
  { b with
    terminator := b.terminator.map (·.mapLabels f)
    instructions := b.instructions.map fun
      | .phi dest t entries => .phi dest t (entries.map fun e => (e.1, f e.2))
      | i => i }

namespace Read

def updateModule (f : Module → Module) : Read Unit :=
  modify fun r => { r with module := f r.module }

def targetProperty : Read Unit := do
  expectWord "target"
  let which ← word
  expectMark '='
  let text ← string
  match which with
  | "triple" => updateModule fun m => { m with triple := some text }
  | "datalayout" => updateModule fun m => { m with dataLayout := some text }
  | _ => fail (.unknownTargetProperty which)

/-- Tokens up to and including the first that satisfies `p`. -/
def lengthThrough? (p : Tok → Bool) (ts : List Token) : Option Nat :=
  (ts.findIdx? fun t => p t.tok).map (· + 1)

/-- Skip through the first mark of a kind. -/
def skipThrough (c : Char) : Read Unit := do
  let r ← get
  match lengthThrough? (· == .mark c) r.rest with
  | some n => advanceBy n
  | none =>
    advanceBy r.rest.length
    unexpected (.mark c)

def skipAttributeGroup : Read Unit := do
  skipThrough '\x7b'
  skipThrough '\x7d'

/-- Add a struct type; one that was declared without fields is replaced in its place. -/
def defineStruct (d : StructDef) : Read Unit := do
  let structs := (← get).module.structs
  match structs.findIdx? (·.name == d.name) with
  | none => updateModule fun m => { m with structs := m.structs ++ [d] }
  | some i =>
    match structs[i]? with
    | some known =>
      if known.isOpaque then updateModule fun m => { m with structs := m.structs.set i d }
      else fail (.structDefinedTwice d.name)
    | none => return ()

def structDefinition : Read Unit := do
  let name ← localValue
  expectMark '='
  expectWord "type"
  if ← eatWord "opaque" then
    defineStruct ⟨name, [], false, true⟩
  else
    let isPacked ← eatMark '<'
    let types ← fields
    if isPacked then expectMark '>'
    defineStruct ⟨name, types, isPacked, false⟩

/-- Words before a type, as the linkage and whether the entity is defined elsewhere. -/
def linkageWords : Nat → Linkage → Bool → Read (Linkage × Bool)
  | 0, _, _ => fail .stalled
  | fuel + 1, linkage, external => do
    if ← eatWordIn ["external", "extern_weak"] then linkageWords fuel linkage true
    else if ← eatWordIn ["internal", "private"] then linkageWords fuel .internal external
    else if (← atWordIn ["addrspace", "thread_local"]) && (← peekAt 1) == .mark '(' then
      advance
      skipGroup
      linkageWords fuel linkage external
    else if ← eatWordIn declarationWords then linkageWords fuel linkage external
    else return (linkage, external)

def linkage : Read (Linkage × Bool) := do linkageWords ((← get).rest.length + 1) .external false

def global : Read Unit := do
  let name ← globalName
  expectMark '='
  let (linkage, external) ← linkage
  let isConstant ← eatWord "constant"
  if !isConstant then expectWord "global"
  let t ← type
  let init ← if external then pure none else some <$> value t
  skipTrailers
  updateModule fun m => { m with globals := m.globals ++ [⟨name, linkage, t, isConstant, init⟩] }

/-- Only debug intrinsics, which are dropped, take metadata. -/
def paramType (isDefinition : Bool) : Read Ty := do
  if !isDefinition then
    if ← eatWord "metadata" then return .void
  type

def paramName (isDefinition : Bool) (index : Nat) : Read String := do
  match ← peek with
  | .value name => advance; return name
  | _ => if isDefinition then unexpected .parameterName else return toString index

/-- Parameters up to the closing parenthesis, and whether `...` ends them. -/
def paramsFrom (isDefinition : Bool) : Nat → Nat → Read (List Param × Bool)
  | 0, _ => fail .stalled
  | fuel + 1, index => do
    if ← eatWord "..." then
      expectMark ')'
      return ([], true)
    let t ← paramType isDefinition
    skipValueAttributes
    let name ← paramName isDefinition index
    if ← eatMark ')' then return ([⟨name, t⟩], false)
    expectMark ','
    let (others, isVariadic) ← paramsFrom isDefinition fuel (index + 1)
    return (⟨name, t⟩ :: others, isVariadic)

def params (isDefinition : Bool) : Read (List Param × Bool) := do
  expectMark '('
  if ← eatMark ')' then return ([], false)
  paramsFrom isDefinition ((← get).rest.length + 1) 0

/-- One attribute between the parameters and the body; false at the body or the end of the line. -/
def functionAttribute : Read Bool := do
  if ← atLineStart then return false
  match ← peek with
  | .mark '\x7b' | .eof => return false
  | .word "personality" =>
    advance
    let _ ← type
    advance
    return true
  | .word _ =>
    advance
    if ← atMark '(' then skipGroup
    return true
  | .mark '#' | .mark '!' => advanceBy 2; return true
  | .str _ | .int _ => advance; return true
  | _ => unexpected .functionAttribute

def signature (linkage : Linkage) (isDefinition : Bool) : Read Function := do
  skipValueAttributes
  let result ← type
  let name ← globalName
  let (params, isVariadic) ← params isDefinition
  repeatWhile functionAttribute
  return ⟨name, linkage, result, params, isVariadic, []⟩

/-- Blocks read so far, the newest first. -/
structure Body where
  blocks : List BasicBlock
  /-- The first block was written without a label. -/
  isEntryImplicit : Bool

/-- The block that is being read and those before it; an instruction before any label starts the
entry block. -/
def Body.current (b : Body) : BasicBlock × List BasicBlock × Bool :=
  match b.blocks with
  | [] => (⟨entryLabel, [], none⟩, [], true)
  | block :: done => (block, done, b.isEntryImplicit)

/-- A terminator or an instruction at the end of a block. -/
def blockItem (block : BasicBlock) : Read BasicBlock := do
  if block.terminator.isSome then fail (.afterTerminator block.label)
  match ← terminator? with
  | some t => return { block with terminator := some t }
  | none =>
    match ← instruction with
    | some i => return { block with instructions := block.instructions ++ [i] }
    | none => return block

/-- Labels, instructions and debug records up to the closing brace. -/
def bodyFrom : Nat → Body → Read Body
  | 0, _ => fail .stalled
  | fuel + 1, body => do
    match ← peek with
    | .mark '\x7d' =>
      advance
      return body
    | .eof => unexpected (.mark '\x7d')
    | .label label =>
      advance
      bodyFrom fuel { body with blocks := ⟨label, [], none⟩ :: body.blocks }
    | .mark '#' =>
      skipLine
      bodyFrom fuel body
    | _ =>
      let (block, done, isEntryImplicit) := body.current
      let block ← blockItem block
      skipTrailers
      bodyFrom fuel ⟨block :: done, isEntryImplicit⟩

/-- The blocks of a definition. Where values are numbered, a first block without a label has the
number after the parameters, and branches to that number go to it. -/
def body (implicitEntry : String) : Read (List BasicBlock) := do
  expectMark '\x7b'
  let body ← bodyFrom ((← get).rest.length + 1) ⟨[], false⟩
  let blocks := body.blocks.reverse
  if blocks.isEmpty then fail .noBlocks
  if body.isEntryImplicit && !blocks.any (·.label == implicitEntry) then
    return blocks.map (·.renameLabel implicitEntry entryLabel)
  return blocks

/-- The number of an entry block without a label: how many parameters are numbered. -/
def implicitEntry (params : List Param) : String :=
  toString (params.countP fun p => (Text.Numeral.natural? 10 UInt64.size p.name.toList).isSome)

def addFunction (f : Function) : Read Unit :=
  updateModule fun m => { m with functions := m.functions ++ [f] }

def declaration : Read Unit := do
  let (linkage, _) ← linkage
  let f ← signature linkage false
  if !isDebugName f.name then addFunction f

def definition : Read Unit := do
  let (linkage, _) ← linkage
  let f ← signature linkage true
  addFunction { f with blocks := ← body (implicitEntry f.params) }

/-- One entity at the top level; false at the end. -/
def entity : Read Bool := do
  match ← peek with
  | .eof => return false
  | .word "target" => targetProperty; return true
  | .word "source_filename" =>
    advance
    expectMark '='
    let _ ← string
    return true
  | .word "attributes" => skipAttributeGroup; return true
  | .word "declare" => advance; declaration; return true
  | .word "define" => advance; definition; return true
  | .word w =>
    if w.startsWith "$" || w == "module" then
      skipLine
      return true
    unexpected .entity
  | .mark '!' => skipLine; return true
  | .value _ => structDefinition; return true
  | .symbol _ => global; return true
  | _ => unexpected .entity

end Read

/-- Read a whole module; `name` becomes its name. -/
def readModule (name text : String) : Except ReadError Module := do
  let tokens ← tokenizeModule text
  let ((), r) ← (Read.repeatWhile Read.entity).run (.ofText name tokens)
  return r.module

end Offload.Compiled
