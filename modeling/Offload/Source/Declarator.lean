import Offload.Source.Stream

/-!
# Declarators

What is read off a declaration's tokens without moving through them: where it ends, which name it
declares, its parameters and its attributes.
-/

namespace Offload.Source

/-- Where a declaration stands. -/
inductive Scope where
  | file
  | namespaceBody
  /-- Linkage specification directly at file scope. -/
  | linkage
  | record (name : Option String)
deriving DecidableEq, Repr

/-- A function declarator: token indices of its name and of its parentheses. -/
structure Declarator where
  name : Nat
  text : String
  openParen : Nat
  closeParen : Nat

/-- A declaration's declarator, the index of its body's brace, and of its terminator. -/
structure Extent where
  declarator : Option Declarator
  body : Option Nat
  stop : Nat

namespace TokenStream

variable (ts : TokenStream)

/-- A parameter in `[a, b)`; a default argument and its `=` are left out. The name is the last
identifier, array brackets aside, unless it must be part of the type. -/
def param (a b : Nat) : Except Fault Param := do
  let b := (ts.find? a b (· == .symbol .equal)).getD b
  let span ← ts.spanBetween a (b - 1)
  let (nameEnd, suffix) ←
    if ts.lexeme (b - 1) == .symbol .closeBracket then do
      let bracket := (ts.find? a b (· == .symbol .openBracket)).getD (b - 1)
      pure (bracket, ← ts.renderSlice bracket b)
    else pure (b, "")
  match ts.lexeme (nameEnd - 1) with
  | .ident name =>
    if a + 2 ≤ nameEnd && !typeKeywords.contains name && name != "const" && name != "volatile" &&
        ts.lexeme (nameEnd - 2) != .symbol .colonColon then
      return ⟨some name, (← ts.renderSlice a (nameEnd - 1)) ++ suffix, span⟩
    else
      return ⟨none, ← ts.renderSlice a b, span⟩
  | _ => return ⟨none, ← ts.renderSlice a b, span⟩

/-- The parameters between two parentheses. -/
def params (start stop : Nat) : Except Fault (List Param) :=
  if stop ≤ start || (stop == start + 1 && ts.lexeme start == .ident "void") then .ok []
  else (ts.groups start stop).mapM fun g => ts.param g.1 g.2

def attributeArg (x y : Nat) : Except Fault AttributeArg := do
  let span ← ts.spanBetween x (y - 1)
  match ts.lexeme x with
  | .str s =>
    if y = x + 1 then return .str ⟨s, span⟩ else return .other ⟨← ts.renderSlice x y, span⟩
  | _ => return .other ⟨← ts.renderSlice x y, span⟩

/-- Attribute names may be written between double underscores. -/
def plainAttributeName (name : String) : String :=
  let cs := name.toList
  if ['_', '_'].isPrefixOf cs && ['_', '_'].isSuffixOf (cs.drop 2) then
    String.ofList ((cs.drop 2).take (cs.length - 4))
  else name

/-- One entry of an attribute list in `[a, b)`. -/
def attributeEntry? (nameIndex a b : Nat) : Except Fault (Option Attribute) := do
  match ts.lexeme a with
  | .ident name =>
    let args ←
      if a + 1 < b && ts.lexeme (a + 1) == .symbol .openParen then
        (ts.groups (a + 2) (ts.matching (a + 1))).mapM fun g => ts.attributeArg g.1 g.2
      else pure []
    let t ← ts.token a
    return some {
      name := plainAttributeName name
      location := t.span
      fromMacro := t.isExpanded
      beforeName := decide (a < nameIndex)
      args := args }
  | _ => return none

/-- GNU attributes in `[i, stop)`. -/
def attributesFrom (stop nameIndex : Nat) : Nat → Nat → Except Fault (List Attribute)
  | 0, _ => .ok []
  | fuel + 1, i =>
    if i < stop then
      if ts.lexeme i == .ident "__attribute__" && ts.lexeme (i + 1) == .symbol .openParen &&
          ts.lexeme (i + 2) == .symbol .openParen then do
        let entries ← (ts.groups (i + 3) (ts.matching (i + 2))).mapM fun g =>
          ts.attributeEntry? nameIndex g.1 g.2
        let rest ← attributesFrom stop nameIndex fuel (ts.matching (i + 1) + 1)
        return entries.filterMap id ++ rest
      else attributesFrom stop nameIndex fuel (i + 1)
    else .ok []

def attributes (start stop nameIndex : Nat) : Except Fault (List Attribute) :=
  ts.attributesFrom stop nameIndex (stop - start + 1) start

/-- Walk back over `A::B::` from `chain`: where the chain starts and its qualifier nearest to the
name; nothing if something else stands before a `::`. -/
def chainStart (start : Nat) : Nat → Nat → Option String → Option (Nat × Option String)
  | 0, chain, nearest => some (chain, nearest)
  | fuel + 1, chain, nearest =>
    if start + 2 ≤ chain && ts.lexeme (chain - 1) == .symbol .colonColon then
      match ts.lexeme (chain - 2) with
      | .ident q => chainStart start fuel (chain - 2) (nearest.or (some q))
      | _ => none
    else some (chain, nearest)

/-- Something that can be the specifiers of a declaration. -/
def isSpecifier (l : Lexeme) : Bool :=
  l.isIdent || l == .symbol .star || l == .symbol .amp || l == .symbol .ampAmp ||
    l == .symbol .greater

/-- The name declared by the parenthesis at `paren`, if it opens a function declarator: an
identifier with specifiers before it, or a constructor or destructor. -/
def declaratorName? (start : Nat) (scope : Scope) (paren : Nat) : Option Nat :=
  if paren = start then none
  else
    let index := paren - 1
    match ts.lexeme index with
    | .ident name =>
      if nonCallable.contains name || typeKeywords.contains name ||
          declarationSpecifiers.contains name then none
      else
        let afterTilde :=
          if start < index && ts.lexeme (index - 1) == .punct "~" then index - 1 else index
        match ts.chainStart start afterTilde afterTilde none with
        | none => none
        | some (chain, nearest) =>
          let chain :=
            if start < chain && ts.lexeme (chain - 1) == .symbol .colonColon then chain - 1
            else chain
          let specified := (ts.find? start chain isSpecifier).isSome
          let destructor := ts.lexeme (index - 1) == .punct "~"
          if specified || destructor || scope == .record (some name) || nearest == some name then
            some index
          else none
    | _ => none

/-- Spelling of an operator's name from `i` up to its parenthesis. -/
def operatorName : Nat → Nat → Option (String × Nat)
  | 0, _ => none
  | fuel + 1, i =>
    if ts.atEnd i || ts.lexeme i == .symbol .openParen then some ("", i)
    else if ts.lexeme i == .symbol .semicolon || ts.lexeme i == .symbol .openBrace then none
    else
      match operatorName fuel (i + 1) with
      | none => none
      | some (text, stop) =>
        let l := ts.lexeme i
        some ((if l.isIdent then " " else "") ++ l.spelling ++ text, stop)

/-- An operator function whose `operator` keyword stands at `i`. -/
def operatorDeclarator? (i : Nat) : Option Declarator :=
  let name :=
    if ts.lexeme (i + 1) == .symbol .openParen && ts.lexeme (i + 2) == .symbol .closeParen then
      some ("()", i + 3)
    else ts.operatorName (ts.size + 1) (i + 1)
  match name with
  | none => none
  | some (text, paren) =>
    if ts.lexeme paren == .symbol .openParen then
      some ⟨i, "operator" ++ text, paren, ts.matching paren⟩
    else none

/-- Scan state of a declaration: the declarator found, whether an initializer came before it, and
whether a member initializer list came after it. -/
structure Shape where
  declarator : Option Declarator
  initialized : Bool
  memberInit : Bool

namespace Shape

def open_ (s : Shape) : Bool := s.declarator.isNone && !s.initialized

end Shape

/-- Find the declarator and the end of the declaration that starts at `start`. -/
def extentFrom (start : Nat) (scope : Scope) : Nat → Shape → Nat → Extent
  | 0, s, i => ⟨s.declarator, none, i⟩
  | fuel + 1, s, i =>
    if ts.atEnd i then ⟨s.declarator, none, i⟩
    else
      match ts.lexeme i with
      | .symbol .semicolon | .symbol .closeBrace => ⟨s.declarator, none, i⟩
      | .symbol .openBrace =>
        let previous := ts.lexeme (i - 1)
        let member := s.memberInit && (previous.isIdent || previous == .symbol .greater)
        if s.declarator.isSome && !s.initialized && !member then ⟨s.declarator, some i, i⟩
        else extentFrom start scope fuel s (ts.matching i + 1)
      | .ident "operator" =>
        match if s.open_ then ts.operatorDeclarator? i else none with
        | some d => extentFrom start scope fuel { s with declarator := some d } (d.closeParen + 1)
        | none => extentFrom start scope fuel s (i + 1)
      | .symbol .openParen =>
        let close := ts.matching i
        match if s.open_ then ts.declaratorName? start scope i else none with
        | some name =>
          let d : Declarator := ⟨name, (ts.lexeme name).spelling, i, close⟩
          extentFrom start scope fuel { s with declarator := some d } (close + 1)
        | none => extentFrom start scope fuel s (close + 1)
      | .symbol .openBracket => extentFrom start scope fuel s (ts.matching i + 1)
      | .symbol .less =>
        if start < i && (ts.lexeme (i - 1)).isIdent then
          extentFrom start scope fuel s ((ts.matchingAngle i ts.size).getD i + 1)
        else extentFrom start scope fuel s (i + 1)
      | .symbol .equal =>
        extentFrom start scope fuel { s with initialized := s.initialized || s.declarator.isNone }
          (i + 1)
      | .symbol .colon =>
        extentFrom start scope fuel { s with memberInit := s.memberInit || s.declarator.isSome }
          (i + 1)
      | _ => extentFrom start scope fuel s (i + 1)

def extent (start : Nat) (scope : Scope) : Extent :=
  ts.extentFrom start scope (ts.size + 1) ⟨none, false, false⟩ start

/-- Qualifier segments written directly before `i`. -/
def qualifierFrom (start : Nat) : Nat → Nat → List String
  | 0, _ => []
  | fuel + 1, i =>
    if start + 2 ≤ i && ts.lexeme (i - 1) == .symbol .colonColon then
      match ts.lexeme (i - 2) with
      | .ident q => qualifierFrom start fuel (i - 2) ++ [q]
      | _ => []
    else []

/-- The qualifier before the name at `i`, and whether the name is a destructor's. -/
def qualifierBefore (i start : Nat) : List String × Bool :=
  let destructor := decide (start < i) && ts.lexeme (i - 1) == .punct "~"
  let i := if destructor then i - 1 else i
  (ts.qualifierFrom start i i, destructor)

/-- A brace follows with no `;`, `(`, `=` or `}` before it, so that a record has a body. -/
def recordBodyFrom : Nat → Nat → Bool
  | 0, _ => false
  | fuel + 1, i =>
    if ts.atEnd i then false
    else
      match ts.lexeme i with
      | .symbol .openBrace => true
      | .symbol .semicolon | .symbol .openParen | .symbol .equal | .symbol .closeBrace => false
      | _ => recordBodyFrom fuel (i + 1)

def recordBodyAhead (i : Nat) : Bool := ts.recordBodyFrom ts.size (i + 1)

end TokenStream

end Offload.Source
