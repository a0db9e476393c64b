import JsonTemplate.Calendar.Timestamp
import JsonTemplate.Diagnostic
import JsonTemplate.Directive
import JsonTemplate.ValueSource

/-!
# Resolution of directives

A directive is resolved by a call to a source of values. How its arguments are passed depends on
the method's name alone. Resolution always gives a value: where the source fails, the directive's
own name, and a diagnostic.
-/

namespace JsonTemplate

/-- The state of the source and the diagnostics so far, the oldest first. -/
structure Ledger (σ : Type) where
  source : σ
  diagnostics : List Diagnostic := []

abbrev Resolving (σ α : Type) := StateT (Ledger σ) (Except Halt) α

/-- How a method takes its arguments. -/
inductive ArgumentShape
  /-- Options `min` and `max`, with defaults; without arguments no options are passed unless
  `whenBare`. -/
  | range (min max : Int) (whenBare : Bool)
  /-- The option `length`. -/
  | length (default : Int)
  /-- Always the option `abbreviated`. -/
  | abbreviated
  /-- The option `days`; the result is reduced to its date. -/
  | days (default : Int)
  /-- Options `min` and `max` of an age; the result is reduced to its date. -/
  | ages (min max : Int)
  /-- The arguments as they are, and if that fails options `min` and `max`. -/
  | positional
  deriving DecidableEq

namespace ArgumentShape

def ofMethod (method : String) : ArgumentShape :=
  if method = "int" ∨ method = "float" then .range 1 100 false
  else if method = "price" then .range 1 1000 true
  else if method = "password" then .length 15
  else if method = "state" then .abbreviated
  else if method = "recent" ∨ method = "future" ∨ method = "past" ∨ method = "soon" then .days 30
  else if method = "birthdate" then .ages 18 80
  else .positional

/-- The argument at a place, or a default. -/
def argument (args : List Json) (place : Nat) (default : Int) : Json :=
  args[place]?.getD (.ofInt default)

/-- The options `min` and `max`, as far as there are arguments for them. -/
def minAndMax (args : List Json) : Json :=
  .object (["min", "max"].zip args)

/-- The arguments that the first call passes. -/
def adapt (shape : ArgumentShape) (args : List Json) : List Json :=
  match shape with
  | .range min max whenBare =>
    if args.isEmpty && !whenBare then []
    else [.object [("min", argument args 0 min), ("max", argument args 1 max)]]
  | .length default =>
    if args.isEmpty then [] else [.object [("length", argument args 0 default)]]
  | .abbreviated => [.object [("abbreviated", .bool true)]]
  | .days default => if args.isEmpty then [] else [.object [("days", argument args 0 default)]]
  | .ages min max =>
    [.object [("min", argument args 0 min), ("max", argument args 1 max),
      ("mode", .string "age")]]
  | .positional => args

/-- What becomes of the value of a call. -/
def finish : ArgumentShape → Json → Json
  | .days _, v => Calendar.dateOf v
  | .ages .., v => Calendar.dateOf v
  | _, v => v

end ArgumentShape

variable {σ : Type}

namespace Resolving

def report (d : Diagnostic) : Resolving σ Unit :=
  modify fun l => { l with diagnostics := l.diagnostics ++ [d] }

/-- Takes the diagnostics out. -/
def drainDiagnostics : Resolving σ (List Diagnostic) :=
  modifyGet fun l => (l.diagnostics, { l with diagnostics := [] })

def has (source : ValueSource σ) (namespaceName method : String) : Resolving σ Bool :=
  modifyGet fun l =>
    let (answer, s) := (source.has namespaceName method).run l.source
    (answer, { l with source := s })

def call (source : ValueSource σ) (namespaceName method : String) (args : List Json) :
    Resolving σ (Except SourceError Json) := fun l => do
  let (answer, s) ← (source.call namespaceName method args).run.run l.source
  return (answer, { l with source := s })

/-- Calls a method with its arguments adapted. Only arguments passed as they are give a second
call, in which the first two become options. -/
def callAdapted (source : ValueSource σ) (namespaceName method : String) (args : List Json) :
    Resolving σ (Except SourceError Json) := do
  let shape := ArgumentShape.ofMethod method
  match ← call source namespaceName method (shape.adapt args) with
  | .ok v => return .ok (shape.finish v)
  | .error e =>
    if shape = .positional ∧ !args.isEmpty then
      call source namespaceName method [ArgumentShape.minAndMax args]
    else return .error e

def resolveQualified (source : ValueSource σ) (namespaceName method : String) (args : List Json) :
    Resolving σ Json := do
  let path := namespaceName ++ "." ++ method
  if ← has source namespaceName method then
    match ← callAdapted source namespaceName method args with
    | .ok v => return v
    | .error e =>
      report ⟨.sourceFailure, path, "Error calling " ++ path ++ ": " ++ e.message⟩
      return .string path
  else
    report ⟨.unknownDirective, path, "Unknown method: " ++ path⟩
    return .string path

/-- A name alone: `boolean` is a generator, and any other name stands for some word. -/
def resolveName (source : ValueSource σ) (name : String) : Resolving σ Json := do
  if name = "boolean" then
    match ← call source "datatype" "boolean" [] with
    | .ok v => return v
    | .error e =>
      report ⟨.sourceFailure, name, "Error calling datatype.boolean: " ++ e.message⟩
      return .string name
  else
    report ⟨.unknownVariable, name, "Unknown variable: " ++ name ++ ", using lorem.word"⟩
    match ← call source "lorem" "word" [] with
    | .ok v => return v
    | .error _ => return .string name

/-- A fresh value for a directive; nothing is remembered from one occurrence to the next. -/
def resolve (source : ValueSource σ) (d : Directive) : Resolving σ Json :=
  match d.method with
  | some method => resolveQualified source d.name method d.args
  | none => resolveName source d.name

end Resolving

end JsonTemplate
