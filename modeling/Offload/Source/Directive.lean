import Offload.Source.Lexer
import Offload.Text.Blank

/-!
# Directives and macros

A line whose first token is `#` is a directive. Included files are not read and conditions are not
evaluated: every branch stays. Object-like macros are expanded; an expanded token stands at the
use of the outermost macro. A macro is not expanded again inside its own expansion.
-/

namespace Offload.Source

inductive DirectiveKind where
  /-- The span reaches from the `#` to the end of the file name. -/
  | include_ (file : String) (angled : Bool) (span : Span)
  | define (name : String) (functionLike : Bool)
  | undefine (name : String)
  | other (name : String)
deriving DecidableEq, Repr

/-- The span reaches from the `#` to the end of the line's last token. -/
structure Directive where
  kind : DirectiveKind
  span : Span
deriving DecidableEq, Repr

/-- Object-like macros and their bodies, newest first. -/
abbrev MacroTable := List (String × List Token)

namespace MacroTable

def body? (macros : MacroTable) (name : String) : Option (List Token) := macros.lookup name

def define (macros : MacroTable) (name : String) (body : List Token) : MacroTable :=
  (name, body) :: macros.filter fun m => m.1 != name

def undefine (macros : MacroTable) (name : String) : MacroTable :=
  macros.filter fun m => m.1 != name

/-- A body token placed at the use site. -/
def placed (site : Span) (t : Token) : Token :=
  { t with
    spelled := some (t.spelled.getD t.span)
    span := site
    atLineStart := false
    position := .expansion }

/-- Tokens that stand for `t`. The names in `active` are being expanded; each level adds one, so
`fuel` levels suffice when there are that many macros. -/
def expand (macros : MacroTable) (site : Span) : Nat → List String → Token → List Token
  | 0, _, t => [t]
  | fuel + 1, active, t =>
    match t.lexeme with
    | .ident name =>
      if active.contains name then [t]
      else
        match macros.body? name with
        | none => [t]
        | some body =>
          body.flatMap fun u => expand macros site fuel (name :: active) (placed site u)
    | _ => [t]

/-- The first token of an expansion takes over the line start of the macro's name. -/
def markFirst (atLineStart : Bool) : List Token → List Token
  | [] => []
  | t :: rest => { t with atLineStart := atLineStart } :: rest

/-- The last token of an expansion closes it. -/
def markLast : List Token → List Token
  | [] => []
  | [t] => [{ t with position := .expansionEnd }]
  | t :: rest => t :: markLast rest

/-- What a token of the file contributes to the token stream. -/
def contribution (macros : MacroTable) (t : Token) : List Token :=
  match t.lexeme with
  | .ident name =>
    match macros.body? name with
    | none => [t]
    | some _ => markLast (markFirst t.atLineStart (expand macros t.span (macros.length + 1) [] t))
  | _ => [t]

end MacroTable

structure Preprocessed where
  tokens : List Token
  directives : List Directive
  diagnostics : List Diagnostic

/-- The effect of one directive line. -/
structure DirectiveEffect where
  directive : Option Directive
  macros : MacroTable
  diagnostics : List Diagnostic

/-- The file named by an include line, if its form is known. An angle bracket that does not close
leaves no directive and is not reported. -/
def includeKind (doc : Document) (start : Nat) (operands : List Token) :
    Except Fault (Option DirectiveKind × List Problem) :=
  match operands with
  | [] => .ok (none, [.missingFileName])
  | first :: rest =>
    match first.lexeme with
    | .str file => .ok (some (.include_ file false ⟨start, first.span.stop⟩), [])
    | .symbol .less =>
      match rest.find? fun t => t.lexeme == .symbol .greater with
      | none => .ok (none, [])
      | some close => do
        let name ← doc.slice ⟨first.span.stop, close.span.start⟩
        let file := String.ofList (Text.trim (Text.ofBytes name).toList)
        return (some (.include_ file true ⟨start, close.span.stop⟩), [])
    | _ => .ok (none, [.missingFileName])

/-- A parenthesis directly after a macro's name makes the macro function-like. Such macros are
recorded and change no table. -/
def isFunctionLike (name : Token) (rest : List Token) : Bool :=
  match rest with
  | t :: _ => t.lexeme == .symbol .openParen && t.span.start == name.span.stop
  | [] => false

/-- Carry out the directive whose `#` is `hash` and whose other tokens are `line`. A `#` alone on
its line is no directive. -/
def directiveEffect (doc : Document) (macros : MacroTable) (hash : Token) (line : List Token) :
    Except Fault DirectiveEffect := do
  let span : Span := ⟨hash.span.start, (line.getLast?.getD hash).span.stop⟩
  match line with
  | [] => return ⟨none, macros, []⟩
  | word :: operands =>
    let name := word.lexeme.spelling
    if name == "include" || name == "include_next" || name == "import" then
      let (kind, problems) ← includeKind doc hash.span.start operands
      return ⟨kind.map (⟨·, span⟩), macros, problems.map (⟨·, span⟩)⟩
    else if name == "define" then
      match operands with
      | target :: body =>
        match target.lexeme with
        | .ident macroName =>
          let functionLike := isFunctionLike target body
          let macros := if functionLike then macros else MacroTable.define macros macroName body
          return ⟨some ⟨.define macroName functionLike, span⟩, macros, []⟩
        | _ => return ⟨none, macros, [⟨.missingMacroName, span⟩]⟩
      | [] => return ⟨none, macros, [⟨.missingMacroName, span⟩]⟩
    else if name == "undef" then
      let target := (operands.head?.bind (·.lexeme.ident?)).getD ""
      return ⟨some ⟨.undefine target, span⟩, MacroTable.undefine macros target, []⟩
    else
      return ⟨some ⟨.other name, span⟩, macros, []⟩

/-- The tokens of a directive line after its `#`: all up to the next line or the end. -/
def continuesLine (t : Token) : Bool := !t.atLineStart && !t.isEof

/-- Remove directives and expand macros. Every step takes at least one token. -/
def preprocessFrom (doc : Document) : Nat → MacroTable → List Token → Except Fault Preprocessed
  | _, _, [] => .ok ⟨[], [], []⟩
  | 0, _, _ => .error .exhausted
  | fuel + 1, macros, t :: rest => do
    if t.lexeme == .symbol .hash && t.atLineStart then
      let effect ← directiveEffect doc macros t (rest.takeWhile continuesLine)
      let after ← preprocessFrom doc fuel effect.macros (rest.dropWhile continuesLine)
      return {
        tokens := after.tokens
        directives := effect.directive.toList ++ after.directives
        diagnostics := effect.diagnostics ++ after.diagnostics }
    else
      let after ← preprocessFrom doc fuel macros rest
      return { after with tokens := macros.contribution t ++ after.tokens }

def preprocess (doc : Document) (raw : List Token) : Except Fault Preprocessed :=
  preprocessFrom doc raw.length [] raw

end Offload.Source
