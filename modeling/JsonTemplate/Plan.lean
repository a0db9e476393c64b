import JsonTemplate.RepeatBlock
import JsonTemplate.Text.Position

/-!
# Plans

A template may stand within other text. Its root is the first opening brace or bracket, and it
ends at the last delimiter that closes the root; a repeat mark after an array repeats it as a whole.
-/

namespace JsonTemplate

open Text

inductive Container
  | array
  | object
  deriving DecidableEq, Repr

def Container.closing : Container → Char
  | .array => ']'
  | .object => '\x7d'

/-- The container that a character opens. -/
def Container.ofOpening? (c : Char) : Option Container :=
  if c = '\x7b' then some .object
  else if c = '[' then some .array
  else none

/-- A root: whether it is an array or an object, the text before it, and the text from it on. -/
structure Root where
  container : Container
  before : List Char
  text : List Char
  deriving DecidableEq

namespace Root

/-- Finds the first delimiter that opens a root. -/
def find? : List Char → Option Root
  | [] => none
  | c :: t =>
    match Container.ofOpening? c with
    | some container => some ⟨container, [], c :: t⟩
    | none => (find? t).map fun r => { r with before := c :: r.before }

/-- The offset of the root in bytes. -/
def offset (r : Root) : Nat :=
  utf8Length r.before

/-- Cuts a text after the last occurrence of a character; without one the first part is all. -/
def splitAfterLast (c : Char) (t : List Char) : List Char × List Char :=
  match t.reverse.dropWhile (· != c) with
  | [] => (t, [])
  | kept => (kept.reverse, (t.reverse.takeWhile (· != c)).reverse)

theorem splitAfterLast_append (c : Char) (t : List Char) :
    (splitAfterLast c t).1 ++ (splitAfterLast c t).2 = t := by
  unfold splitAfterLast
  split
  · simp
  · rw [← List.reverse_append, List.takeWhile_append_dropWhile, List.reverse_reverse]

/-- The template from its root to its end, and the text after it. -/
def split (r : Root) : List Char × List Char :=
  splitAfterLast r.container.closing r.text

end Root

/-- A repeat mark at the head of a text, blanks aside: its count and the text after it. -/
def headMark? (t : List Char) : Option (Nat × List Char) :=
  (RepeatBlock.splitMark? (trimStart t)).bind fun (ds, rest) =>
    (RepeatBlock.count? ds).map fun count => (count, rest)

/-- What is to be done with a template: expand it once, or the array so many times over. -/
inductive Plan
  | once (container : Container) (text : List Char)
  | repeated (text : List Char) (count : Nat)
  deriving DecidableEq

/-- The plan for a text with a root. A mark after an object is ignored. -/
def Plan.ofText? (t : List Char) : Option Plan :=
  (Root.find? t).map fun r =>
    let (text, after) := r.split
    match r.container, headMark? after with
    | .array, some (count, _) => .repeated text count
    | container, _ => .once container text

/-- The template as it is written in a text, with a repeat mark after it. -/
def writtenTemplate? (t : List Char) : Option (List Char) :=
  (Root.find? t).map fun r =>
    let (text, after) := r.split
    match headMark? after with
    | some (_, rest) => text ++ after.take (after.length - rest.length)
    | none => text

end JsonTemplate
