import Offload.Source.Parse

/-!
# Blocks, statements and expressions

Statements are cut at semicolons outside brackets. In each one the calls and lambdas are collected;
a statement that looks like `T name …` also declares variables, which lambdas that follow may
capture. A lambda's body is parsed as a block wherever its braces lead, even past the statement's
own end.
-/

namespace Offload.Source

open Parse

namespace TokenStream

variable (ts : TokenStream)

/-- Index of the `;` that ends a statement, or of the `}` or `eof` that cuts it short. -/
def statementEndFrom : Nat → Nat → Nat
  | 0, i => i
  | fuel + 1, i =>
    if ts.atEnd i then i
    else
      let l := ts.lexeme i
      if l == .symbol .semicolon || l == .symbol .closeBrace then i
      else statementEndFrom fuel ((if l.opens then ts.matching i else i) + 1)

def statementEnd (start : Nat) : Nat := ts.statementEndFrom (ts.size + 1) start

/-- Parentheses and brackets are passed as a whole; braces are not. -/
def passGroup (i : Nat) : Nat :=
  if ts.lexeme i == .symbol .openParen || ts.lexeme i == .symbol .openBracket then ts.matching i
  else i

/-- Index of the colon that ends a label. -/
def labelEndFrom : Nat → Nat → Nat
  | 0, i => i
  | fuel + 1, i =>
    if ts.atEnd i || ts.lexeme i == .symbol .colon then i
    else labelEndFrom fuel (ts.passGroup i + 1)

def labelEnd (start : Nat) : Nat := ts.labelEndFrom (ts.size + 1) start

/-- Where the header of a compound statement ends, and whether a `;` ends it there. -/
def headerEndFrom : Nat → Nat → Nat × Bool
  | 0, i => (i, false)
  | fuel + 1, i =>
    if ts.atEnd i then (i, false)
    else
      match ts.lexeme i with
      | .symbol .openBrace | .symbol .closeBrace => (i, false)
      | .symbol .semicolon => (i, true)
      | _ => headerEndFrom fuel (ts.passGroup i + 1)

def headerEnd (start : Nat) : Nat × Bool := ts.headerEndFrom (ts.size + 1) start

/-- Index after the declared name of a declaration that starts at `start`: of the `=`, bracket or
comma after it, or `stop`. Nothing if the tokens before are not those of a type and a name. -/
def afterNameFrom? (start stop : Nat) : Nat → Nat → Option Nat
  | 0, _ => none
  | fuel + 1, i =>
    if i < stop then
      match ts.lexeme i with
      | .symbol .equal | .symbol .comma => some i
      | .symbol .openParen | .symbol .openBrace | .symbol .openBracket => some i
      | .symbol .less =>
        if start < i && (ts.lexeme (i - 1)).isIdent then
          match ts.matchingAngle i stop with
          | some close => afterNameFrom? start stop fuel (close + 1)
          | none => none
        else none
      | .ident _ | .symbol .colonColon | .symbol .star | .symbol .amp | .symbol .ampAmp =>
        afterNameFrom? start stop fuel (i + 1)
      | _ => none
    else some stop

/-- Words that start no variable declaration although a name may follow them. -/
def nonTypeWords : List String := ["using", "typedef", "this", "new", "co_await"]

/-- The first variable of a declaration in `[start, stop)`. -/
structure FirstVar where
  name : String
  type : String
  /-- Index after the name. -/
  after : Nat

/-- Recognise `T name …`; storage classes do not count as part of the type. -/
def firstVar? (start stop : Nat) : Except Fault (Option FirstVar) :=
  match ts.lexeme start with
  | .ident word =>
    if nonTypeWords.contains word then .ok none
    else
      match ts.afterNameFrom? start stop (stop - start + 1) start with
      | none => .ok none
      | some k =>
        if k < start + 2 then .ok none
        else
          match ts.lexeme (k - 1) with
          | .ident name =>
            if typeKeywords.contains name || declarationSpecifiers.contains name ||
                ts.lexeme (k - 2) == .symbol .colonColon then .ok none
            else do
              let typeTokens := (← ts.slice start (k - 1)).filter fun t =>
                match t.lexeme with
                | .ident w => !storageClasses.contains w
                | _ => true
              return if typeTokens.isEmpty then none else some ⟨name, render typeTokens, k⟩
          | _ => .ok none
  | _ => .ok none

/-- A `[` at `i` may introduce a lambda: it does not open an attribute and does not follow an
operand. -/
def lambdaCanStart (i start : Nat) : Bool :=
  if ts.lexeme (i + 1) == .symbol .openBracket then false
  else if i = start then true
  else
    match ts.lexeme (i - 1) with
    | .ident w => w == "return" || w == "co_return" || w == "co_yield"
    | .symbol .closeParen | .symbol .closeBracket | .number _ | .str _ | .char _ => false
    | _ => true

/-- Segments of a path with its template arguments left out, and the index after it. -/
def pathFrom (stop : Nat) : Nat → Nat → List String × Nat
  | 0, i => ([], i)
  | fuel + 1, i =>
    if i < stop then
      match ts.lexeme i with
      | .ident part =>
        let next :=
          if ts.lexeme (i + 1) == .symbol .less && !nonCallable.contains part then
            match ts.matchingAngle (i + 1) stop with
            | some close => close + 1
            | none => i + 1
          else i + 1
        if ts.lexeme next == .symbol .colonColon && (ts.lexeme (next + 1)).isIdent then
          let (parts, after) := pathFrom stop fuel (next + 1)
          (part :: parts, after)
        else ([part], next)
      | _ => ([], i)
    else ([], i)

/-- A path that may start with `::`, if it has a segment. -/
def path? (i stop : Nat) : Option (List String × Nat) :=
  let first := if ts.lexeme i == .symbol .colonColon then i + 1 else i
  let (parts, after) := ts.pathFrom stop (stop - i + 1) first
  if parts.isEmpty then none else some (parts, after)

/-- Index after a lambda's specifiers, from `i`. -/
def lambdaSpecifiersFrom (stop : Nat) : Nat → Nat → Nat
  | 0, i => i
  | fuel + 1, i =>
    if i < stop then
      match ts.lexeme i with
      | .ident w =>
        if w == "mutable" || w == "constexpr" || w == "consteval" || w == "static" then
          lambdaSpecifiersFrom stop fuel (i + 1)
        else if w == "noexcept" || w == "__attribute__" || w == "requires" then
          let next :=
            if ts.lexeme (i + 1) == .symbol .openParen then ts.matching (i + 1) + 1 else i + 1
          lambdaSpecifiersFrom stop fuel next
        else i
      | .symbol .arrow => lambdaSpecifiersFrom stop fuel (resultTypeEnd stop (stop - i + 1) (i + 1))
      | _ => i
    else i
where
  /-- Index of the brace after a result type. -/
  resultTypeEnd (stop : Nat) : Nat → Nat → Nat
    | 0, i => i
    | fuel + 1, i =>
      if i < stop && ts.lexeme i != .symbol .openBrace then
        resultTypeEnd stop fuel (ts.passGroup i + 1)
      else i

/-- What one entry of a capture list says. -/
inductive CaptureEntry where
  | default (d : CaptureDefault)
  | named (name : String) (kind : CaptureKind)
  | none

def captureEntry (lexemes : List Lexeme) : CaptureEntry :=
  match lexemes with
  | [.symbol .amp] => .default .byRef
  | [.symbol .equal] => .default .byCopy
  | [.ident n] => .named n (if n == "this" then .this else .byCopy)
  | [.symbol .star, .ident n] => if n == "this" then .named n .starThis else .none
  | [.symbol .amp, .ident n] => .named n .byRef
  | [.symbol .amp, .ident n, .punct _] => .named n .byRef
  | [.ident n, .punct _] => .named n .byCopy
  | .ident n :: .symbol s :: _ => initEntry n s
  | .symbol .amp :: .ident n :: .symbol s :: _ => initEntry n s
  | _ => .none
where
  initEntry (n : String) (s : Symbol) : CaptureEntry :=
    if s == .equal || s == .openBrace || s == .openParen then .named n .init else .none

/-- A capture list: the last default written, and the named captures. -/
structure CaptureList where
  captureDefault : Option CaptureDefault
  named : List (String × CaptureKind × Span)

/-- The capture list between the brackets at `start - 1` and `stop`. -/
def captureList (start stop : Nat) : Except Fault CaptureList := do
  let entries ← (ts.groups start stop).mapM fun g => do
    let span ← ts.spanBetween g.1 (g.2 - 1)
    let lexemes := (List.range' g.1 (g.2 - g.1)).map ts.lexeme
    return (captureEntry lexemes, span)
  let defaults := entries.filterMap fun e =>
    match e.1 with
    | .default d => some d
    | _ => none
  let named := entries.filterMap fun e =>
    match e.1 with
    | .named name kind => some (name, kind, e.2)
    | _ => none
  return ⟨defaults.getLast?, named⟩

/-- The name at `k` is part of a path or a member's name. -/
def isQualifiedOrMember (k : Nat) : Bool :=
  let before := ts.lexeme (k - 1)
  before == .symbol .colonColon || before == .symbol .arrow || before == .punct "." ||
    ts.lexeme (k + 1) == .symbol .colonColon

/-- Names used in a body that a capture default takes in: each once, at its first use, if it names
a variable in scope that is not declared inside, or `this`. -/
def implicitCaptures (kind : CaptureKind) (locals : Locals) (inside : List String) :
    List String → List Nat → Except Fault (List Capture)
  | _, [] => .ok []
  | seen, k :: rest =>
    match ts.lexeme k with
    | .ident name =>
      if ts.isQualifiedOrMember k || seen.contains name then
        implicitCaptures kind locals inside seen rest
      else if name == "this" then do
        let t ← ts.token k
        let others ← implicitCaptures kind locals inside (name :: seen) rest
        return ⟨name, .this, none, true, t.span⟩ :: others
      else if inside.contains name then implicitCaptures kind locals inside seen rest
      else
        match locals.type? name with
        | none => implicitCaptures kind locals inside seen rest
        | some type => do
          let t ← ts.token k
          let others ← implicitCaptures kind locals inside (name :: seen) rest
          return ⟨name, kind, some type, true, t.span⟩ :: others
    | _ => implicitCaptures kind locals inside seen rest

/-- Captures of a lambda whose body's tokens have the indices `used`. -/
def captures (list : CaptureList) (locals : Locals) (inside : List String) (used : List Nat) :
    Except Fault (List Capture) := do
  let explicit := list.named.map fun (name, kind, span) =>
    let type := match kind with
      | .byRef | .byCopy => locals.type? name
      | _ => none
    (⟨name, kind, type, false, span⟩ : Capture)
  match list.captureDefault with
  | none => return explicit
  | some d =>
    let implicit ←
      ts.implicitCaptures d.kind locals inside (list.named.map (·.1)) used
    return explicit ++ implicit

/-- A lambda at `i` up to its body: its capture list, its parameters and the index of the body's
brace. -/
structure LambdaShape where
  captureList : CaptureList
  closeBracket : Nat
  params : List Param
  paramsSpan : Option Span
  brace : Nat

/-- The parameter list at `j`, if there is one, and the index after it; nothing if it does not
close before `stop`. -/
def lambdaParams? (j stop : Nat) : Except Fault (Option (List Param × Option Span × Nat)) :=
  if ts.lexeme j == .symbol .openParen then
    let close := ts.matching j
    if stop ≤ close then .ok none
    else do
      let params ← ts.params (j + 1) close
      let span ← ts.spanBetween j close
      return some (params, some span, close + 1)
  else .ok (some ([], none, j))

def lambdaShape? (i stop : Nat) : Except Fault (Option LambdaShape) := do
  let close := ts.matching i
  if stop ≤ close then
    return none
  let list ← ts.captureList (i + 1) close
  let afterTemplate :=
    if ts.lexeme (close + 1) == .symbol .less then
      (ts.matchingAngle (close + 1) stop).map (· + 1)
    else some (close + 1)
  match afterTemplate with
  | none => return none
  | some j =>
    match ← ts.lambdaParams? j stop with
    | none => return none
    | some (params, paramsSpan, j) =>
      let brace := ts.lambdaSpecifiersFrom stop (stop - j + 1) j
      if stop ≤ brace || ts.lexeme brace != .symbol .openBrace then
        return none
      return some ⟨list, close, params, paramsSpan, brace⟩

/-- A call at `i`: its head, and the index of its parenthesis and of the one that closes it. -/
def callShape? (i stop : Nat) : Option (List String × Nat × Nat) :=
  match ts.path? i stop with
  | none => none
  | some (callee, paren) =>
    let last := callee.getLastD ""
    if nonCallable.contains last || statementKeywords.contains last then none
    else if stop ≤ paren || ts.lexeme paren != .symbol .openParen then none
    else
      let close := ts.matching paren
      if stop ≤ close then none else some (callee, paren, close)

def isMemberAccess (i : Nat) : Bool :=
  0 < i && (ts.lexeme (i - 1) == .symbol .arrow || ts.lexeme (i - 1) == .punct ".")

end TokenStream

variable (ts : TokenStream)

mutual

/-- The block whose `{` is at the cursor, which ends up after its `}`. -/
def parseBlock : Nat → Parse Block
  | 0 => Parse.fault .exhausted
  | fuel + 1 => do
    let brace ← cursor
    let _ ← advance ts
    pushScope []
    let stmts ←
      if ← enterNesting ts then parseStmts fuel
      else do
        moveTo (ts.matching brace)
        pure []
    exitNesting
    popScope
    let close ← cursor
    if !(← eat ts .closeBrace) then
      report .unterminatedBlock (← ts.token brace).span
    return .mk (← ts.rangeBetween brace close) stmts

/-- Statements up to a `}` or the end. A step that does not move is forced to. -/
def parseStmts : Nat → Parse (List Stmt)
  | 0 => Parse.fault .exhausted
  | fuel + 1 => do
    let l ← peek ts
    if l == .symbol .closeBrace || l == .eof then
      return []
    let before ← cursor
    let stmt ← parseStmt fuel
    if (← cursor) == before then
      let _ ← advance ts
    let rest ← parseStmts fuel
    return stmt.toList ++ rest

def parseStmt : Nat → Parse (Option Stmt)
  | 0 => Parse.fault .exhausted
  | fuel + 1 => do
    if ← atSymbol ts .openBrace then
      return some (.block (← parseBlock fuel))
    if ← eat ts .semicolon then
      return none
    let start ← cursor
    let word := (← peek ts).ident?
    if word.any compoundKeywords.contains then
      let (stop, terminated) := ts.headerEnd start
      let last := if terminated then stop else max (stop - 1) start
      let exprs ← scanExprs fuel start stop start
      moveTo (if terminated then stop + 1 else stop)
      return some (.other (← ts.spanBetween start last) exprs)
    if word == some "case" || word == some "default" ||
        (word.isSome && (← peekAt ts 1) == .symbol .colon) then
      let stop := ts.labelEnd start
      moveTo stop
      let _ ← advance ts
      return some (.other (← ts.spanBetween start stop) [])
    let stop := ts.statementEnd start
    let span ← ts.spanBetween start (max (stop - 1) start)
    let first ←
      if word.any statementKeywords.contains then pure none else ts.firstVar? start stop
    let stmt ← match first with
      | some v => do
        let (names, exprs) ← parseVars fuel start stop v
        names.forM fun n => declare n.value v.type
        pure (Stmt.vars names v.type span exprs)
      | none => do pure (Stmt.other span (← scanExprs fuel start stop start))
    moveTo stop
    let _ ← eat ts .semicolon
    return some stmt

/-- All names of a declaration and the expressions of its initializers. -/
def parseVars : Nat → Nat → Nat → TokenStream.FirstVar →
    Parse (List (Located String) × List Expr)
  | 0, _, _, _ => Parse.fault .exhausted
  | fuel + 1, start, stop, v => do
    let first : Located String := ⟨v.name, (← ts.token (v.after - 1)).span⟩
    let groups := ts.splitTopLevel start stop
    let firstEnd := (groups.head?.map (·.2)).getD stop
    let exprs ←
      if v.after < firstEnd then scanExprs fuel v.after firstEnd v.after else pure []
    let others ← (groups.drop 1).mapM fun g => do
      match ts.find? g.1 g.2 Lexeme.isIdent with
      | none => pure ([], [])
      | some x =>
        let name : Located String := ⟨(ts.lexeme x).spelling, (← ts.token x).span⟩
        pure ([name], ← scanExprs fuel (x + 1) g.2 (x + 1))
    return (first :: others.flatMap (·.1), exprs ++ others.flatMap (·.2))

/-- Calls and lambdas in `[start, stop)` from `i` on. The cursor may end up anywhere. -/
def scanExprs : Nat → Nat → Nat → Nat → Parse (List Expr)
  | 0, _, _, _ => Parse.fault .exhausted
  | fuel + 1, start, stop, i => do
    if !(i < stop && !ts.atEnd i) then
      return []
    match ts.lexeme i with
    | .symbol .openBracket =>
      if ts.lambdaCanStart i start then
        match ← parseLambda fuel i stop with
        | some (e, next) => return e :: (← scanExprs fuel start stop next)
        | none => scanExprs fuel start stop (i + 1)
      else scanExprs fuel start stop (i + 1)
    | .ident _ | .symbol .colonColon =>
      match ← parseCall fuel i stop with
      | some (e, next) => return e :: (← scanExprs fuel start stop next)
      | none =>
        match ts.path? i stop with
        | some (_, next) => scanExprs fuel start stop (max next (i + 1))
        | none => scanExprs fuel start stop (i + 1)
    | _ => scanExprs fuel start stop (i + 1)

/-- A call at `i` that closes before `stop`, and the index after it. -/
def parseCall : Nat → Nat → Nat → Parse (Option (Expr × Nat))
  | 0, _, _ => Parse.fault .exhausted
  | fuel + 1, i, stop => do
    match ts.callShape? i stop with
    | none => return none
    | some (callee, paren, close) =>
      let args ← (ts.groups (paren + 1) close).mapM fun g => do
        let span ← ts.spanBetween g.1 (g.2 - 1)
        return Arg.mk span (← scanExprs fuel g.1 g.2 g.1)
      let head : CallHead := ⟨callee, ts.isMemberAccess i, ← ts.spanBetween i close⟩
      return some (.call head args, close + 1)

/-- A lambda at `i` whose body starts before `stop`, and the index after its body. -/
def parseLambda : Nat → Nat → Nat → Parse (Option (Expr × Nat))
  | 0, _, _ => Parse.fault .exhausted
  | fuel + 1, i, stop => do
    match ← ts.lambdaShape? i stop with
    | none => return none
    | some shape =>
      pushScope (paramVars shape.params)
      moveTo shape.brace
      let body ← parseBlock fuel
      let next ← cursor
      popScope
      let inside := shape.params.filterMap (·.name) ++ body.localNames
      let used := List.range' (shape.brace + 1) (next - 1 - (shape.brace + 1))
      let captures ← ts.captures shape.captureList (← get).locals inside used
      let head : LambdaHead := {
        span := ← ts.spanBetween i (max (next - 1) i)
        introducer := ← ts.spanBetween i shape.closeBracket
        captureDefault := shape.captureList.captureDefault
        captures := captures
        params := shape.params
        paramsSpan := shape.paramsSpan }
      return some (.lambda head body, next)

end

end Offload.Source
