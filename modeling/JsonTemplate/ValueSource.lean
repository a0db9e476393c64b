import JsonTemplate.Json.Basic

/-!
# Sources of values

A source answers for methods of namespaces: whether it has one, and what a call gives. Its state is
threaded through, so that the answers may depend on all earlier questions.
-/

namespace JsonTemplate

/-- Why an expansion stops without a result. -/
inductive Halt
  /-- A number was to be drawn from a range without a finite scale. -/
  | endlessRange
  /-- A text was to be made that no memory can hold. -/
  | endlessText
  /-- Repeat blocks lead into one another without end. -/
  | endlessNesting
  deriving DecidableEq, Repr

inductive SourceError
  | unknownMethod (namespaceName method : String)
  | invalidArgument (text : String)
  deriving DecidableEq, Repr

def SourceError.message : SourceError → String
  | .unknownMethod namespaceName method => "unknown method " ++ namespaceName ++ "." ++ method
  | .invalidArgument text => "invalid argument: " ++ text

/-- What a call gives: a value or an error, with the state after it, unless all stops. -/
abbrev Served (σ α : Type) := ExceptT SourceError (StateT σ (Except Halt)) α

structure ValueSource (σ : Type) where
  has : String → String → StateM σ Bool
  call : String → String → List Json → Served σ Json

end JsonTemplate
