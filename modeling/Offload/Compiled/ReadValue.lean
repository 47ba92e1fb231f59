import Offload.Compiled.Reader

/-!
# Reading types and values

An anonymous struct type gets a name of its own, and an equal one read later gets the same name.
-/

namespace Offload.Compiled.Read

/-- The name of an anonymous struct type. -/
def literalStruct (fields : List Ty) (isPacked : Bool) : Read Ty := do
  let r ← get
  let known := r.module.structs.find? fun s =>
    s.name.startsWith "literal." && s.fields == fields && s.isPacked == isPacked
  match known with
  | some s => return .struct s.name
  | none =>
    let name := "literal." ++ toString r.literals
    let def_ : StructDef := ⟨name, fields, isPacked, false⟩
    set { r with
      literals := r.literals + 1
      module := { r.module with structs := r.module.structs ++ [def_] } }
    return .struct name

/-- The number after the `i` of an integer type's name. -/
def widthOf? (w : String) : Option Nat :=
  match w.toList with
  | 'i' :: digits => Text.Numeral.natural? 10 UInt32.size digits
  | _ => none

/-- Stars and address spaces after a type. -/
def pointers : Nat → Ty → Read Ty
  | 0, _ => fail .stalled
  | fuel + 1, t => do
    if (← atWord "addrspace") && (← peekAt 1) == .mark '(' then
      advance
      skipGroup
      pointers fuel t
    else if ← eatMark '*' then
      pointers fuel (.ptr t)
    else
      return t

def pointersAfter (t : Ty) : Read Ty := do pointers ((← get).rest.length + 1) t

def arrayLength : Read Nat := do
  match ← next with
  | .int n => if 0 ≤ n then return n.toNat else unexpected .arrayLength
  | _ => unexpected .arrayLength

mutual

/-- A type; the fuel bounds how deep types nest. -/
def typeWithin : Nat → Read Ty
  | 0 => fail .stalled
  | fuel + 1 => do
    match ← peek with
    | .word w =>
      let scalar : Option Ty := match w with
        | "void" => some .void
        | "float" => some .float
        | "double" => some .double
        | "ptr" => some .untypedPtr
        | _ => none
      match scalar, widthOf? w with
      | some t, _ =>
        advance
        pointersAfter t
      | none, some bits =>
        match Width.ofBits? bits with
        | some width =>
          advance
          pointersAfter (.int width)
        | none => fail (.unsupportedWidth bits)
      | none, none => unexpected .type
    | .value name =>
      advance
      pointersAfter (.struct name)
    | .mark '[' =>
      advance
      let n ← arrayLength
      expectWord "x"
      let element ← typeWithin fuel
      expectMark ']'
      pointersAfter (.array n element)
    | .mark '\x7b' =>
      let fields ← fieldsWithin fuel
      pointersAfter (← literalStruct fields false)
    | .mark '<' =>
      if (← peekAt 1) == .mark '\x7b' then
        advance
        let fields ← fieldsWithin fuel
        expectMark '>'
        pointersAfter (← literalStruct fields true)
      else
        unexpected .type
    | _ => unexpected .type

/-- The fields of a struct type, in braces. -/
def fieldsWithin : Nat → Read (List Ty)
  | 0 => fail .stalled
  | fuel + 1 => do
    expectMark '\x7b'
    if ← eatMark '\x7d' then return []
    listUntil '\x7d' (typeWithin fuel)

end

def nesting : Read Nat := return 2 * (← get).rest.length + 2

def type : Read Ty := do typeWithin (← nesting)

def fields : Read (List Ty) := do fieldsWithin (← nesting)

/-- The byte as a signed eight-bit constant. -/
def byteValue (b : UInt8) : Ty × Value := (.int .w8, .int b.toInt8.toInt)

/-- Words of constant expressions, which are not read. -/
def constantExpressions : List String :=
  ["getelementptr", "bitcast", "ptrtoint", "inttoptr", "addrspacecast"]

/-- An integer constant as a value of the given type. -/
def integerAt (t : Ty) (v : Int) : Value :=
  if t.isFloat then .float (Binary64.ofInt v)
  else if t == .int .w1 then .bool (v != 0)
  else .int v

def wordValue? : String → Option Value
  | "true" => some (.bool true)
  | "false" => some (.bool false)
  | "null" => some .null
  | "undef" | "poison" => some .undef
  | "zeroinitializer" => some .zero
  | _ => none

/-- A value that is a single token. -/
def simpleValue? (t : Ty) : Tok → Option Value
  | .value name => some (.var name)
  | .symbol name => some (.symbol name)
  | .int v => some (integerAt t v)
  | .float v => some (.float v)
  | .bits v => some (.float ⟨v⟩)
  | .bytes bs => some (.array (bs.map byteValue))
  | .word w => wordValue? w
  | _ => none

mutual

/-- A value of the given type; the fuel bounds how deep values nest. -/
def valueWithin : Nat → Ty → Read Value
  | 0, _ => fail .stalled
  | fuel + 1, t => do
    let tok ← peek
    match simpleValue? t tok with
    | some v =>
      advance
      return v
    | none =>
      match tok with
      | .word w =>
        if constantExpressions.contains w then fail (.constantExpression w) else unexpected .value
      | .mark '[' =>
        advance
        return .array (← itemsWithin fuel ']')
      | .mark '\x7b' =>
        advance
        return .struct (← itemsWithin fuel '\x7d')
      | .mark '<' =>
        if (← peekAt 1) == .mark '\x7b' then
          advanceBy 2
          let items ← itemsWithin fuel '\x7d'
          expectMark '>'
          return .struct items
        else
          unexpected .value
      | _ => unexpected .value

/-- Typed values up to a closing mark. -/
def itemsWithin : Nat → Char → Read (List (Ty × Value))
  | 0, _ => fail .stalled
  | fuel + 1, close => do
    if ← eatMark close then return []
    listUntil close (typedWithin fuel)

def typedWithin : Nat → Read (Ty × Value)
  | 0 => fail .stalled
  | fuel + 1 => do
    let t ← type
    skipValueAttributes
    return (t, ← valueWithin fuel t)

end

def value (t : Ty) : Read Value := do valueWithin (3 * (← get).rest.length + 3) t

def typedValue : Read (Ty × Value) := do typedWithin (3 * (← get).rest.length + 3)

end Offload.Compiled.Read
