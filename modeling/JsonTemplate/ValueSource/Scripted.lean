import JsonTemplate.ValueSource

/-!
# Scripted sources

A source that answers from a script: for a method, or for all methods of a namespace, a list of
answers that is gone through over and over.
-/

namespace JsonTemplate

inductive ScriptedAnswer
  | value (v : Json)
  | invalid (text : String)
  | unknown

/-- A script names methods as `namespace.method`, or `namespace.*` for all of them. -/
structure Script where
  /-- The methods that the source says it does not have. -/
  missing : List String := []
  /-- The methods that take nothing but options. -/
  optionsOnly : List String := []
  answers : List (String × List ScriptedAnswer) := []

namespace Script

/-- The names under which a script may list a method. -/
def names (namespaceName method : String) : List String :=
  [namespaceName ++ "." ++ method, namespaceName ++ ".*"]

def lists (listed : List String) (namespaceName method : String) : Bool :=
  (names namespaceName method).any listed.contains

def isOptions : Json → Bool
  | .object _ => true
  | _ => false

/-- The name and the answers that a script has for a method. -/
def answersFor? (script : Script) (namespaceName method : String) :
    Option (String × List ScriptedAnswer) :=
  (names namespaceName method).findSome? fun name =>
    (script.answers.lookup name).map fun answers => (name, answers)

/-- The answers given so far, by the name that they were listed under. -/
abbrev Uses := List String

def serve (namespaceName method : String) : ScriptedAnswer → Except SourceError Json
  | .value v => .ok v
  | .invalid text => .error (.invalidArgument text)
  | .unknown => .error (.unknownMethod namespaceName method)

/-- The source of a script. A method without answers answers with its name. -/
def source (script : Script) : ValueSource Uses where
  has namespaceName method := return !lists script.missing namespaceName method
  call namespaceName method args := do
    if lists script.optionsOnly namespaceName method && !args.all isOptions then
      throw (.invalidArgument "objects only")
    else
      match script.answersFor? namespaceName method with
      | none => return .string (namespaceName ++ ":" ++ method)
      | some (name, answers) =>
        let uses ← get
        set (name :: uses)
        match answers[uses.count name % answers.length]? with
        | some answer => ExceptT.mk (return serve namespaceName method answer)
        | none => return .null

end Script

end JsonTemplate
