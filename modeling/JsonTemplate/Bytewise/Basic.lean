import JsonTemplate.Text.Position

/-!
# Places in a text

A text is UTF-8, and a place in it is the number of bytes before it. A text is cut between two
places, each between two characters or at an end, and the first no later than the second. Work that
cuts elsewhere breaks off, as does work that reads a byte past the end, counts below nought or goes
round a loop more often than the text is long: what returns has done none of this. The modules of
this folder say how the texts of templates are taken apart by their bytes, with every place as an
offset.
-/

namespace JsonTemplate.Bytewise

open Text

/-- Why work breaks off. -/
inductive Fault
  /-- A text was cut at what are not two places of it, the one no later than the other. -/
  | badCut
  /-- A byte past the end was read. -/
  | noByte
  /-- A number fell below nought. -/
  | belowZero
  /-- A loop over a text did not end. -/
  | endless
  deriving DecidableEq, Repr

/-- Work that returns or breaks off. -/
abbrev Work (α : Type) := Except Fault α

def orFault {α : Type} (f : Fault) : Option α → Work α
  | some a => pure a
  | none => throw f

/-- The two parts of a text at an offset, if it lies between two characters or at an end. -/
def splitAt? : List Char → Nat → Option (List Char × List Char)
  | t, 0 => some ([], t)
  | [], _ + 1 => none
  | c :: t, n + 1 =>
    if c.utf8Size ≤ n + 1 then
      (splitAt? t (n + 1 - c.utf8Size)).map fun (front, rest) => (c :: front, rest)
    else none

/-- The text between two offsets, if it can be cut there. -/
def slice? (t : List Char) (start stop : Nat) : Option (List Char) :=
  (splitAt? t stop).bind fun (front, _) => (splitAt? front start).map Prod.snd

def slice (t : List Char) (start stop : Nat) : Work (List Char) :=
  orFault .badCut (slice? t start stop)

/-- The text from an offset on. -/
def remaining (t : List Char) (pos : Nat) : Work (List Char) :=
  slice t pos (utf8Length t)

/-- The UTF-8 form of a text. -/
def bytes (t : List Char) : List UInt8 :=
  t.flatMap String.utf8EncodeChar

/-- The byte at an offset, as the character with its code. -/
def byteAt (t : List Char) (pos : Nat) : Work Char :=
  orFault .noByte ((bytes t)[pos]?.map Char.ofUInt8)

/-- How often a loop over a text may go round: once for each character, and once to end. -/
def limit (t : List Char) : Nat :=
  t.length + 1

def minus (m n : Nat) : Work Nat :=
  if n ≤ m then pure (m - n) else throw .belowZero

end JsonTemplate.Bytewise
