/-!
# Positions

Texts are lists of characters, but offsets and columns count the bytes of their UTF-8 form.
`utf8Length_append` says that the measure is additive; `Position.ofOffset` turns a byte offset
into a line and a column.
-/

namespace JsonTemplate.Text

/-- The number of bytes of the UTF-8 form. -/
def utf8Length : List Char → Nat
  | [] => 0
  | c :: t => c.utf8Size + utf8Length t

@[simp] theorem utf8Length_append (s t : List Char) :
    utf8Length (s ++ t) = utf8Length s + utf8Length t := by
  induction s with
  | nil => simp [utf8Length]
  | cons c s ih => simp [utf8Length, ih, Nat.add_assoc]

/-- A place in a text: the line counts from one, the column is the number of bytes since the last
line feed. -/
structure Position where
  line : Nat
  column : Nat
  deriving DecidableEq, Repr

namespace Position

/-- The place after `c`, seen from the place before it. -/
def advance (p : Position) (c : Char) : Position :=
  if c = '\n' then ⟨p.line + 1, 0⟩ else ⟨p.line, p.column + c.utf8Size⟩

/-- The place `offset` bytes into `t`, seen from `p`. An offset within a character counts the
bytes of it that lie before. -/
def after (p : Position) : (t : List Char) → (offset : Nat) → Position
  | [], _ => p
  | c :: t, offset =>
    if offset < c.utf8Size then ⟨p.line, p.column + offset⟩
    else (p.advance c).after t (offset - c.utf8Size)

/-- The place `offset` bytes into a text. -/
def ofOffset (t : List Char) (offset : Nat) : Position :=
  (⟨1, 0⟩ : Position).after t offset

end Position

end JsonTemplate.Text
