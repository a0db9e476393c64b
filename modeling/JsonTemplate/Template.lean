import JsonTemplate.Expansion
import JsonTemplate.Plan

/-!
# Templates

The expansion of a whole template against a source of values: its value and the diagnostics, with
the state of the source after it.
-/

namespace JsonTemplate

/-- The value of a template, and the problems that were recovered from. -/
structure Expanded where
  value : Json
  diagnostics : List Diagnostic

/-- A result that the source's state is threaded through, unless all stops or the template is
none. -/
abbrev Expansion (σ α : Type) := ExceptT TemplateError (StateT σ (Except Halt)) α

variable {σ : Type}

namespace Template

open Expanding (nestingAllowance)

/-- Expands a text once, with no placeholders yet. -/
def expandOnce (source : ValueSource σ) (t : List Char) (allowance : Nat := nestingAllowance) :
    Expansion σ Expanded :=
  ExceptT.mk fun s => do
    let (result, session) ← (Expanding.expandJson source t allowance).run { source := s }
    return (result.map fun v => ⟨v, session.diagnostics⟩, session.source)

/-- The items that one expansion adds to a repeated root: those of an array, or else the value. -/
def itemsOf : Json → List Json
  | .array items => items
  | v => [v]

/-- The array of all items, with all diagnostics. -/
def concat (rounds : List Expanded) : Expanded where
  value := .array (rounds.flatMap fun r => itemsOf r.value)
  diagnostics := rounds.flatMap Expanded.diagnostics

/-- Expands a text over and over; of the rounds so far the last one comes first. -/
def expandTimes (source : ValueSource σ) (t : List Char) :
    (count : Nat) → (rounds : List Expanded) → (allowance : Nat := nestingAllowance) →
      Expansion σ Expanded
  | 0, rounds, _ => return concat rounds.reverse
  | n + 1, rounds, allowance => do
    let r ← expandOnce source t allowance
    expandTimes source t n (r :: rounds) allowance

/-- Whether a text is a template, apart from what its directives say. -/
def check (t : List Char) : Except TemplateError Unit :=
  match Json.read (toPlainJson t {}).1 with
  | .ok _ => .ok ()
  | .error e => .error (.badSyntax e)

/-- Carries a plan out. A repeated text is checked first, so that an error shows even if the count
is nought. -/
def run (source : ValueSource σ) :
    Plan → (allowance : Nat := nestingAllowance) → Expansion σ Expanded
  | .once _ text, allowance => expandOnce source text allowance
  | .repeated text count, allowance => do
    ExceptT.mk (return check text)
    expandTimes source text count [] allowance

/-- Expands a template. It fails only if there is no root, or the text is not JSON once its
directives are set aside. -/
def expand (source : ValueSource σ) (t : List Char) (allowance : Nat := nestingAllowance) :
    Expansion σ Expanded :=
  match Plan.ofText? t with
  | some plan => run source plan allowance
  | none => throw .noRoot

end Template

end JsonTemplate
