import Offload.Source.Statement

/-!
# Declarations

Nothing is rejected: what is not understood becomes a declaration without structure. Brackets that
do not close can lead the cursor past the end of the stream, which is a fault.
-/

namespace Offload.Source

open Parse

variable (ts : TokenStream)

/-- Levels of recursion that suffice for blocks and expressions: each level moves on by at least
one token, through at most eight mutual calls. -/
def statementFuel : Nat := 8 * ts.size + 16

/-- Template heads at the cursor: the index of the first, or nothing after a list that does not
close. -/
def templateHeads : Nat → Option Nat → Parse (Option (Option Nat))
  | 0, first => return some first
  | fuel + 1, first => do
    if !(← atWord ts "template") then
      return some first
    let first := some (first.getD (← cursor))
    let _ ← advance ts
    if ← atSymbol ts .less then
      match ts.matchingAngle (← cursor) ts.size with
      | some close => moveTo (close + 1)
      | none =>
        reportHere ts .unterminatedTemplateParameters
        return none
    templateHeads fuel first

/-- The tokens of a record between its keyword and its brace, with the name found among them: the
last identifier before a base clause. -/
def recordName : Nat → Option String → Parse (Option String)
  | 0, name => return name
  | fuel + 1, name => do
    match ← peek ts with
    | .symbol .openBrace | .eof => return name
    | .symbol .colon =>
      let i ← cursor
      moveTo ((ts.find? i ts.size fun l => l == .symbol .openBrace || l == .eof).getD (ts.size - 1))
      return name
    | .ident word =>
      let _ ← advance ts
      if word == "__attribute__" then
        if ← atSymbol ts .openParen then
          moveTo (ts.matching (← cursor))
          let _ ← advance ts
        recordName fuel name
      else if word == "final" || word == "alignas" then recordName fuel name
      else recordName fuel (some word)
    | _ =>
      let _ ← advance ts
      recordName fuel name

/-- Functions, variables, types and everything else. -/
def parseGeneric (scope : Scope) (template : Option Nat) : Parse Decl := do
  let start ← cursor
  let extent := ts.extent start scope
  match extent.declarator with
  | none =>
    moveTo extent.stop
    let _ ← eat ts .semicolon
    let first := template.getD start
    return .other (← ts.spanBetween first (max (extent.stop - 1) first))
  | some d =>
    let (qualifier, destructor) := ts.qualifierBefore d.name start
    let name := if destructor then "~" ++ d.text else d.text
    let params ← ts.params (d.openParen + 1) d.closeParen
    let attributes ← ts.attributes start (extent.body.getD extent.stop) d.name
    let (body, last) ← match extent.body with
      | some brace => do
        moveTo brace
        pushScope (paramVars params)
        let block ← parseBlock ts (statementFuel ts)
        popScope
        pure (some block, (← cursor) - 1)
      | none => do
        moveTo extent.stop
        let _ ← eat ts .semicolon
        pure (none, max (extent.stop - 1) d.closeParen)
    return .function {
      name := name
      qualifier := qualifier
      nameSpan := (← ts.token d.name).span
      range := ← ts.rangeBetween start last
      templateRange := ← template.mapM fun t => ts.rangeBetween t last
      params := params
      attributes := attributes
      isEntryPoint := name == "main" && qualifier.isEmpty && (scope == .file || scope == .linkage)
      body := body }

def parseUsing : Parse Decl := do
  let start ← cursor
  let _ ← advance ts
  let _ ← advance ts
  let _ ← eat ts .colonColon
  let path ← Parse.path ts (ts.size + 1)
  let last ← skipToSemicolon ts
  return .usingNamespace path (← ts.spanBetween start last)

mutual

/-- Declarations up to a `}` or the end. A step that does not move is forced to. -/
def parseDecls : Nat → Scope → Parse (List Decl)
  | 0, _ => Parse.fault .exhausted
  | fuel + 1, scope => do
    let l ← peek ts
    if l == .symbol .closeBrace || l == .eof then
      return []
    let before ← cursor
    let decl ← parseDecl fuel scope
    if (← cursor) == before then
      let _ ← advance ts
    let rest ← parseDecls fuel scope
    return decl.toList ++ rest

def parseDecl : Nat → Scope → Parse (Option Decl)
  | 0, _ => Parse.fault .exhausted
  | fuel + 1, scope => do
    if ← eat ts .semicolon then
      return none
    if let .record _ := scope then
      if (← atAnyWord ts ["public", "private", "protected"]) &&
          (← peekAt ts 1) == .symbol .colon then
        let _ ← advance ts
        let _ ← advance ts
        return none
    match ← templateHeads ts (ts.size + 1) none with
    | none => return none
    | some template =>
      let next ← peekAt ts 1
      if (← atWord ts "namespace") || ((← atWord ts "inline") && next == .ident "namespace") then
        return some (← parseNamespace fuel)
      if (← atWord ts "extern") && (match next with | .str _ => true | _ => false) then
        return some (← parseLinkage fuel scope)
      if (← atWord ts "using") && next == .ident "namespace" then
        return some (← parseUsing ts)
      if (← atAnyWord ts ["struct", "class", "union"]) && ts.recordBodyAhead (← cursor) then
        return some (← parseRecord fuel)
      return some (← parseGeneric ts scope template)

def parseNamespace : Nat → Parse Decl
  | 0 => Parse.fault .exhausted
  | fuel + 1 => do
    let start ← cursor
    if ← atWord ts "inline" then
      let _ ← advance ts
    let _ ← advance ts
    let path ← Parse.path ts (ts.size + 1)
    let name := if path.isEmpty then none else some ("::".intercalate path)
    if !(← atSymbol ts .openBrace) then
      let last ← skipToSemicolon ts
      return .other (← ts.spanBetween start last)
    let _ ← advance ts
    let decls ← if ← enterNesting ts then parseDecls fuel .namespaceBody else pure []
    exitNesting
    let close ← cursor
    let _ ← eat ts .closeBrace
    return .scope name (← ts.spanBetween start close) decls

def parseLinkage : Nat → Scope → Parse Decl
  | 0, _ => Parse.fault .exhausted
  | fuel + 1, scope => do
    let start ← cursor
    let _ ← advance ts
    let language := match (← advance ts).lexeme with
      | .str s => s
      | _ => ""
    let inner := if scope == .file then .linkage else scope
    if ← eat ts .openBrace then
      let decls ← parseDecls fuel inner
      let close ← cursor
      let _ ← eat ts .closeBrace
      return .linkage language (← ts.spanBetween start close) decls
    let before ← cursor
    let decl ← parseDecl fuel inner
    let last := max (← cursor) (before + 1) - 1
    return .linkage language (← ts.spanBetween start last) decl.toList

def parseRecord : Nat → Parse Decl
  | 0 => Parse.fault .exhausted
  | fuel + 1 => do
    let start ← cursor
    let keyword := (← advance ts).lexeme.spelling
    let name ← recordName ts (ts.size + 1) none
    let _ ← advance ts
    let members ← if ← enterNesting ts then parseDecls fuel (.record name) else pure []
    exitNesting
    let close ← cursor
    let _ ← eat ts .closeBrace
    -- declarators may follow the closing brace
    let l ← peek ts
    if l != .symbol .semicolon && l != .eof then
      let _ ← skipToSemicolon ts
    else
      let _ ← eat ts .semicolon
    return .record keyword name (← ts.spanBetween start close) members

end

/-- All declarations of a stream; what is left over is a brace too many. -/
def parseUnit : Parse (List Decl) := do
  let decls ← parseDecls ts (4 * ts.size + 16) .file
  if (← peek ts) != .eof then
    reportHere ts .unmatchedBrace
  return decls

/-- Directives take their place among the declarations by where they start. -/
def mergeDirectives (decls : List Decl) (directives : List Directive) : List Decl :=
  (decls ++ directives.map Decl.directive).mergeSort fun a b => a.span.start ≤ b.span.start

/-- A parsed document: its declarations, and the diagnostics of lexer, preprocessor and parser in
this order. -/
structure Parsed where
  decls : List Decl
  diagnostics : List Diagnostic

def parseDocument (doc : Document) : Except Fault Parsed := do
  let (raw, lexical) ← tokenize doc
  let pp ← preprocess doc raw
  let (decls, state) ← (parseUnit ⟨pp.tokens.toArray⟩).run .initial
  return ⟨mergeDirectives decls pp.directives, lexical ++ pp.diagnostics ++ state.diagnostics⟩

end Offload.Source
