import JsonTemplate.Json.SyntaxError
import JsonTemplate.Text.Digit

/-!
# Errors and diagnostics

A template without a root or with a syntax error has no value. Every other problem is recovered
from and reported as a diagnostic.
-/

namespace JsonTemplate

open Text

inductive TemplateError
  | noRoot
  | badSyntax (error : Json.SyntaxError)
  deriving DecidableEq, Repr

namespace TemplateError

def code : TemplateError → String
  | .noRoot => "malformed-template"
  | .badSyntax _ => "template-syntax-error"

def positionText (p : Position) : String :=
  String.ofList (natText p.line ++ ':' :: natText p.column)

/-- The wording of an error, with its place if it has one. -/
def message : TemplateError → String
  | .noRoot => "No valid JSON template found: expected '\x7b' or '['"
  | .badSyntax e => positionText e.position ++ ": " ++ e.cause.message

end TemplateError

inductive DiagnosticKind
  | unknownDirective
  | unknownVariable
  | sourceFailure
  | blockFailure
  deriving DecidableEq, Repr

def DiagnosticKind.code : DiagnosticKind → String
  | .unknownDirective => "unknown-directive"
  | .unknownVariable => "unknown-variable"
  | .sourceFailure => "provider-failure"
  | .blockFailure => "repeat-block-failure"

/-- A problem that was recovered from, with the directive or the block that it was found in. -/
structure Diagnostic where
  kind : DiagnosticKind
  directive : String
  message : String
  deriving DecidableEq, Repr

def Diagnostic.display (d : Diagnostic) : String :=
  d.directive ++ ": " ++ d.message ++ " (" ++ d.kind.code ++ ")"

end JsonTemplate
