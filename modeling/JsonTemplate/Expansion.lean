import JsonTemplate.PlainJson
import JsonTemplate.Expression
import JsonTemplate.Resolution

/-!
# Expansion

A template text is made plain JSON, read, and walked: every string value that names a repeat block,
a directive or an expression is replaced. Copies of a block are made by reading its text anew, so
that each copy gets values of its own.
-/

namespace JsonTemplate

open Text

namespace Placeholders

/-- The value of a text as plain JSON, with its expressions put back. -/
def readTemplate (t : List Char) (p : Placeholders) : Except TemplateError Json × Placeholders :=
  let (plain, p) := toPlainJson t p
  match Json.read plain with
  | .error e => (.error (.badSyntax e), p)
  | .ok v =>
    let (v, p) := p.reinstate v
    (.ok v, p)

/-- The block that a string names, if there is one. -/
def namedBlock? (p : Placeholders) (s : String) : Option (String × RepeatBlock) :=
  (Placeholder.blockName? s.toList).bind fun name =>
    let name := String.ofList name
    (p.block? name).map fun block => (name, block)

end Placeholders

variable {σ : Type}

namespace Resolving

/-- The text of a segment; a directive's value is written as it prints. -/
def segmentText (source : ValueSource σ) : Segment → Resolving σ String
  | .literal s => return s
  | .verbatim s => return s
  | .directive d => return (← resolve source d).display

/-- The texts of segments, one after the other. -/
def segmentTexts (source : ValueSource σ) : List Segment → Resolving σ (List String)
  | [] => return []
  | segment :: rest => do
    let s ← segmentText source segment
    return s :: (← segmentTexts source rest)

/-- Evaluates a text from left to right. A single segment is a directive's value, whatever its
kind, or else the text itself; more are joined to one string. -/
def resolveExpression (source : ValueSource σ) (t : List Char) : Resolving σ Json :=
  match Expression.parse t with
  | [.directive d] => resolve source d
  | [_] => return .string (String.ofList t)
  | segments => return .string (String.join (← segmentTexts source segments))

/-- What a string that names no block stands for. -/
def resolveString (source : ValueSource σ) (s : String) : Resolving σ Json :=
  let t := s.toList
  match if Token.isToken t then Directive.parse? t else none with
  | some d => resolve source d
  | none => if Expression.isLikely t then resolveExpression source t else return .string s

end Resolving

/-- The state of an expansion: what the placeholders stand for, beside the ledger of the
resolution. -/
structure Session (σ : Type) extends Ledger σ where
  placeholders : Placeholders := {}

abbrev Expanding (σ α : Type) := StateT (Session σ) (Except Halt) α

namespace Expanding

/-- A resolution leaves the placeholders alone. -/
def resolving {α : Type} (r : Resolving σ α) : Expanding σ α := fun s => do
  let (a, ledger) ← r.run s.toLedger
  return (a, { s with toLedger := ledger })

def updatePlaceholders {α : Type} (f : Placeholders → α × Placeholders) : Expanding σ α :=
  modifyGet fun s =>
    let (a, p) := f s.placeholders
    (a, { s with placeholders := p })

/-- Reads a text, with the placeholders there are. -/
def readTemplate (t : List Char) : Expanding σ (Except TemplateError Json) :=
  updatePlaceholders (Placeholders.readTemplate t)

/-- Evaluates a text from left to right. -/
def expandExpression (source : ValueSource σ) (t : List Char) : Expanding σ Json :=
  resolving (Resolving.resolveExpression source t)

/-- The first item of a block's array with its strings expanded, if there is one. -/
def expandItem (expandString : String → Expanding σ Json) (template : List Char) :
    Expanding σ (Except TemplateError (Option Json)) := do
  match ← readTemplate template with
  | .error e => return .error e
  | .ok v =>
    match v.firstItem? with
    | some item => return .ok (some (← item.traverseStrings expandString))
    | none => return .ok none

/-- Copies made one after the other, added to those made so far, of which the last one comes first.
An array without an item has no copies. -/
def copies (make : Expanding σ (Except TemplateError (Option Json))) :
    (count : Nat) → (made : List Json) → Expanding σ (Except TemplateError (List Json))
  | 0, made => return .ok made.reverse
  | n + 1, made => do
    match ← make with
    | .error e => return .error e
    | .ok none => return .ok made.reverse
    | .ok (some v) => copies make n (v :: made)

/-- The copies of a block; a block that is not JSON has none, and is reported once. -/
def expandBlock (expandString : String → Expanding σ Json) (name : String) (block : RepeatBlock) :
    Expanding σ Json := do
  match ← copies (expandItem expandString block.template.toList) block.count [] with
  | .ok items => return .array items
  | .error e =>
    resolving <| Resolving.report
      ⟨.blockFailure, name, "Could not parse repeat block: " ++ e.message⟩
    return .array []

/-- What a string stands for, with blocks within blocks down to a depth. -/
def expandString (source : ValueSource σ) : (depth : Nat) → String → Expanding σ Json
  | 0, s => do
    match (← get).placeholders.namedBlock? s with
    | some _ => throw .endlessNesting
    | none => resolving (Resolving.resolveString source s)
  | depth + 1, s => do
    match (← get).placeholders.namedBlock? s with
    | some (name, block) => expandBlock (expandString source depth) name block
    | none => resolving (Resolving.resolveString source s)

/-- Replaces the strings of a value, with blocks within blocks down to a depth. -/
def expandValueTo (source : ValueSource σ) (depth : Nat) (v : Json) : Expanding σ Json :=
  v.traverseStrings (expandString source depth)

/-- How much deeper blocks may nest than there are blocks, unless something else is asked for. A
block lies within one of a higher number, so that only a text that quotes a block's placeholder
comes near; one whose blocks lead round in a circle exceeds every allowance. -/
def nestingAllowance : Nat := 4096

/-- Replaces the strings of a value. -/
def expandValue (source : ValueSource σ) (v : Json) (allowance : Nat := nestingAllowance) :
    Expanding σ Json := do
  expandValueTo source ((← get).placeholders.blocks.length + allowance) v

/-- Expands a template that is one JSON text. -/
def expandJson (source : ValueSource σ) (t : List Char) (allowance : Nat := nestingAllowance) :
    Expanding σ (Except TemplateError Json) := do
  match ← readTemplate t with
  | .error e => return .error e
  | .ok v => return .ok (← expandValue source v allowance)

end Expanding

end JsonTemplate
