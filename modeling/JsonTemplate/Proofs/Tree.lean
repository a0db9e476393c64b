import JsonTemplate.Proofs.Answers
import JsonTemplate.Proofs.Marks
import JsonTemplate.Proofs.Tokens

/-!
# Template trees

What a template is meant to be: JSON scalars, string literals, directives, concatenations, arrays,
objects and repeated arrays, each with the blanks that stand between its pieces. A tree says how it
is written (`Tree.text`) and what it stands for (`Tree.evaluate`); the latter is the plain recursion
over the tree and knows nothing of texts, placeholders or blocks.
-/

namespace JsonTemplate

open Text

variable {σ : Type}

/-- Blanks between the pieces of a template. -/
abbrev Blanks := {t : List Char // ∀ c ∈ t, isJsonBlank c = true}

namespace Blanks

def none : Blanks :=
  ⟨[], by nofun⟩

@[simp]
theorem val_none : none.val = [] :=
  rfl

def one (c : Char) (h : isJsonBlank c = true) : Blanks :=
  ⟨[c], fun _ hd => List.mem_singleton.1 hd ▸ h⟩

end Blanks

/-! ## Leaves -/

/-- A number as it is written. -/
structure Numeric where
  first : Char
  rest : List Char
  value : JsonNumber
  start : first = '-' ∨ first.isDigit = true
  noBlank : ∀ c ∈ rest, isJsonBlank c = false
  isRead : Json.read (first :: rest) = .ok (.number value)

inductive Scalar
  | null
  | bool (b : Bool)
  | number (n : Numeric)

namespace Scalar

def text : Scalar → List Char
  | .null => ['n', 'u', 'l', 'l']
  | .bool true => ['t', 'r', 'u', 'e']
  | .bool false => ['f', 'a', 'l', 's', 'e']
  | .number n => n.first :: n.rest

def value : Scalar → Json
  | .null => .null
  | .bool b => .bool b
  | .number n => .number n.value

end Scalar

/-- A JSON string literal: the text between its quotes, and the string that it denotes. -/
structure Literal where
  body : List Char
  value : String
  isRead : Json.read ('"' :: (body ++ ['"'])) = .ok (.string value)

def Literal.text (l : Literal) : List Char :=
  '"' :: (l.body ++ ['"'])

/-- A literal without the signs that extraction looks for, which is no placeholder. -/
structure Quote extends Literal where
  plain : ∀ c ∈ ['@', '[', ']'], c ∉ body
  noSign : '@' ∉ value.toList
  notExpression : ∀ t, value.toList ≠ "__EXPR_".toList ++ t ++ "__".toList
  notBlock : ∀ t, value.toList ≠ "__REPEAT_".toList ++ t ++ "__".toList

/-- A directive as it is written; a bare `repeat` is none. -/
structure Mention extends Token where
  wellFormed : toToken.WellFormed
  plain : ∀ a ∈ arguments, ∀ c ∈ ['@', '[', ']', '"', '('], c ∉ a
  notRepeat : ¬ (name = "repeat".toList ∧ method = none)

def Mention.directive (m : Mention) : Directive :=
  .ofToken m.toToken

/-- The digits of a repeat mark and the count that they denote. -/
structure Mark where
  digits : List Char
  count : Nat
  isCount : RepeatBlock.count? digits = some count

/-! ## Concatenations -/

/-- What a concatenation is made of. -/
inductive Part
  | quote (q : Quote)
  | mention (m : Mention)

namespace Part

def text : Part → List Char
  | .quote q => q.text
  | .mention m => m.text

def isMention : Part → Bool
  | .quote _ => false
  | .mention _ => true

/-- The text that a part contributes; a directive's value is written as it prints. -/
def display (source : ValueSource σ) : Part → Resolving σ String
  | .quote q => return q.value
  | .mention m => return (← Resolving.resolve source m.directive).display

end Part

/-- A `+` and the part after it, with the blanks before each. -/
structure Link where
  before : Blanks
  after : Blanks
  part : Part

def Link.text (l : Link) : List Char :=
  l.before ++ '+' :: (l.after ++ l.part.text)

/-- Two or more parts, of which one is a directive. -/
structure Concatenation where
  first : Part
  links : List Link
  joined : links ≠ []
  mentions : (first :: links.map Link.part).any Part.isMention = true

namespace Concatenation

def parts (c : Concatenation) : List Part :=
  c.first :: c.links.map Link.part

def text (c : Concatenation) : List Char :=
  c.first.text ++ c.links.flatMap Link.text

end Concatenation

/-! ## Trees -/

/-- The key of a member, with its colon and the blanks around both. -/
structure Label where
  before : Blanks
  key : Quote
  beforeColon : Blanks
  afterColon : Blanks

def Label.text (l : Label) : List Char :=
  l.before ++ (l.key.text ++ (l.beforeColon ++ ':' :: (l.afterColon : List Char)))

mutual

inductive Tree
  | scalar (s : Scalar)
  | quote (q : Quote)
  | mention (m : Mention)
  | concatenation (c : Concatenation)
  | array (gap : Blanks) (elements : Elements)
  | object (gap : Blanks) (members : Members)
  /-- An array with a repeat mark, and the blanks between the two. -/
  | repeated (gap : Blanks) (elements : Elements) (space : Blanks) (mark : Mark)

inductive Elements
  | nil
  | cons (before : Blanks) (element : Tree) (after : Blanks) (rest : Elements)

inductive Members
  | nil
  | cons (label : Label) (value : Tree) (after : Blanks) (rest : Members)

end

/-- The comma before more elements. -/
def Elements.comma : Elements → List Char
  | .nil => []
  | .cons .. => [',']

def Members.comma : Members → List Char
  | .nil => []
  | .cons .. => [',']

mutual

/-- The tree as it is written. -/
def Tree.text : Tree → List Char
  | .scalar s => s.text
  | .quote q => q.text
  | .mention m => m.text
  | .concatenation c => c.text
  | .array gap es => '[' :: (gap ++ (es.text ++ [']']))
  | .object gap ms => '\x7b' :: (gap ++ (ms.text ++ ['\x7d']))
  | .repeated gap es space mark => '[' :: (gap ++ (es.text ++ ']' :: (space ++ RepeatBlock.mark mark.digits)))

def Elements.text : Elements → List Char
  | .nil => []
  | .cons before t after rest => before ++ (t.text ++ (after ++ (rest.comma ++ rest.text)))

def Members.text : Members → List Char
  | .nil => []
  | .cons label t after rest => label.text ++ (t.text ++ (after ++ (rest.comma ++ rest.text)))

end

mutual

/-- How many containers lie within one another. -/
def Tree.nesting : Tree → Nat
  | .scalar _ | .quote _ | .mention _ | .concatenation _ => 0
  | .array _ es | .repeated _ es _ _ => es.nesting + 1
  | .object _ ms => ms.nesting + 1

def Elements.nesting : Elements → Nat
  | .nil => 0
  | .cons _ t _ rest => max t.nesting rest.nesting

def Members.nesting : Members → Nat
  | .nil => 0
  | .cons _ t _ rest => max t.nesting rest.nesting

end

def Members.keys : Members → List String
  | .nil => []
  | .cons label _ _ rest => label.key.value :: rest.keys

mutual

/-- No object has a key twice. -/
def Tree.DistinctKeys : Tree → Prop
  | .scalar _ | .quote _ | .mention _ | .concatenation _ => True
  | .array _ es | .repeated _ es _ _ => es.DistinctKeys
  | .object _ ms => ms.keys.Nodup ∧ ms.DistinctKeys

def Elements.DistinctKeys : Elements → Prop
  | .nil => True
  | .cons _ t _ rest => t.DistinctKeys ∧ rest.DistinctKeys

def Members.DistinctKeys : Members → Prop
  | .nil => True
  | .cons _ t _ rest => t.DistinctKeys ∧ rest.DistinctKeys

end

/-- A root is an array or an object. -/
def Tree.IsRoot : Tree → Prop
  | .array .. | .object .. => True
  | _ => False

/-! ## Evaluation -/

/-- The values of as many runs, one after the other. -/
def Resolving.times (r : Resolving σ Json) : Nat → Resolving σ (List Json)
  | 0 => return []
  | n + 1 => do
    let v ← r
    return v :: (← times r n)

section Evaluation

variable (source : ValueSource σ)

mutual

/-- The value of a tree, in document order. A repeated array has as many values of its first
element, each evaluated anew. -/
def Tree.evaluate : Tree → Resolving σ Json
  | .scalar s => return s.value
  | .quote q => return .string q.value
  | .mention m => Resolving.resolve source m.directive
  | .concatenation c => do return .string (String.join (← c.parts.mapM (Part.display source)))
  | .array _ es => do return .array (← es.evaluate)
  | .object _ ms => do return .object (← ms.evaluate)
  | .repeated _ .nil _ _ => return .array []
  | .repeated _ (.cons _ t _ _) _ mark => do
    return .array (← Resolving.times t.evaluate mark.count)

def Elements.evaluate : Elements → Resolving σ (List Json)
  | .nil => return []
  | .cons _ t _ rest => do
    let v ← t.evaluate
    return v :: (← rest.evaluate)

def Members.evaluate : Members → Resolving σ Json.Fields
  | .nil => return []
  | .cons label t _ rest => do
    let v ← t.evaluate
    return (label.key.value, v) :: (← rest.evaluate)

end

end Evaluation

end JsonTemplate
