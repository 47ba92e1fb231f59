import Offload.Document

/-!
# Diagnostics

Located problems that do not stop a run. Each problem is a cause; its wording, notes and help are
functions of the cause.
-/

namespace Offload

inductive Severity where
  | error
  | warning
deriving DecidableEq, Repr

def Severity.word : Severity → String
  | .error => "error"
  | .warning => "warning"

/-- What is wrong with a restriction attribute. -/
inductive RestrictionFlaw where
  | unknownTarget (text : String)
  | notALiteral (text : String)
  | noTarget
  | beforeDeclarator (function : String)
deriving DecidableEq, Repr

def RestrictionFlaw.note : RestrictionFlaw → String
  | .unknownTarget text => "unknown target \"" ++ text ++ "\""
  | .notALiteral text => "argument `" ++ text ++ "` is not a string literal"
  | .noTarget => "no target selected"
  | .beforeDeclarator function => "the attribute must follow the declarator of '" ++ function ++ "'"

/-- Captures that a kernel cannot describe. -/
inductive UnsupportedCapture where
  | this
  | starThis
  | init (name : String)
deriving DecidableEq, Repr

def UnsupportedCapture.describe : UnsupportedCapture → String
  | .this => "`this`"
  | .starThis => "`*this`"
  | .init name => "init-capture `" ++ name ++ "`"

inductive Problem where
  | unterminatedComment
  | unterminatedString
  | unterminatedRawString
  | unterminatedCharacter
  | unexpectedByte (byte : UInt8)
  | missingMacroName
  | missingFileName
  | unmatchedBrace
  | nestingTooDeep
  | unterminatedTemplateParameters
  | unterminatedBlock
  | extraRestriction (attr function : String)
  | invalidRestriction (attr function : String) (flaws : List RestrictionFlaw)
  | notALambda (callee : String)
  | unsupportedCapture (capture : UnsupportedCapture)
  | capturedVariable (name : String)
deriving DecidableEq, Repr

namespace Problem

def severity : Problem → Severity
  | .extraRestriction .. | .capturedVariable .. => .warning
  | _ => .error

/-- A stray byte is named by the character with its code point. -/
def message : Problem → String
  | .unterminatedComment => "unterminated block comment"
  | .unterminatedString => "unterminated string literal"
  | .unterminatedRawString => "unterminated raw string literal"
  | .unterminatedCharacter => "unterminated character literal"
  | .unexpectedByte byte => "unexpected character '" ++ (Ascii.latin1 byte).toString ++ "'"
  | .missingMacroName => "macro name missing after #define"
  | .missingFileName => "expected a file name after #include"
  | .unmatchedBrace => "unmatched '\x7d' at file scope"
  | .nestingTooDeep => "nesting depth exceeded (maximum 256 levels)"
  | .unterminatedTemplateParameters => "unterminated template parameter list"
  | .unterminatedBlock => "unterminated block"
  | .extraRestriction attr function =>
    "additional '" ++ attr ++ "' attribute on '" ++ function ++ "' is ignored"
  | .invalidRestriction attr function _ =>
    "invalid '" ++ attr ++ "' attribute on '" ++ function ++ "'"
  | .notALambda callee => "last argument of '" ++ callee ++ "' must be a lambda expression"
  | .unsupportedCapture capture => "cannot offload a closure that captures " ++ capture.describe
  | .capturedVariable name =>
    "captured variable '" ++ name ++ "' is not passed to the generated kernel"

def notes : Problem → List String
  | .invalidRestriction _ _ flaws => flaws.map RestrictionFlaw.note
  | .unsupportedCapture _ => ["only variables captured by reference or by value are supported"]
  | _ => []

def help? : Problem → Option String
  | .invalidRestriction attr _ _ =>
    some ("write `__attribute__((" ++ attr ++ "(\"cpu\", \"gpu\")))` after the parameter list")
  | .notALambda _ => some "write the kernel inline as `[&](T x) \x7b ... \x7d`"
  | _ => none

end Problem

structure Diagnostic where
  problem : Problem
  span : Span
deriving DecidableEq, Repr

namespace Diagnostic

def isError (d : Diagnostic) : Bool := d.problem.severity == .error

/-- `name:line:column: severity: message`. -/
def summary (d : Diagnostic) (doc : Document) : String :=
  doc.describe d.span.start ++ ": " ++ d.problem.severity.word ++ ": " ++ d.problem.message

end Diagnostic

end Offload
