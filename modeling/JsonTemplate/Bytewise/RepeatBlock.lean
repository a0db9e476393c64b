import JsonTemplate.Bytewise.Basic
import JsonTemplate.RepeatBlock

/-!
# Repeat blocks by offsets

Marks are looked for from the start of the text, and again in each text that a replaced block
leaves. The array of a block is found by walking back over the bytes: the brackets are ASCII, and no
byte of a longer character is.
-/

namespace JsonTemplate.Bytewise

open Text

/-- A repeat mark in a text: where it starts and ends, and its digits. -/
structure MarkPlace where
  start : Nat
  digits : List Char
  stop : Nat
  deriving DecidableEq

/-- The number of bytes of a repeat mark with the given digits. -/
def markLength (ds : List Char) : Nat :=
  utf8Length RepeatBlock.markStart + utf8Length ds + 1

/-- The first repeat mark of a text that itself starts at an offset. -/
def firstMark? (offset : Nat) : List Char → Option MarkPlace
  | [] => none
  | c :: t =>
    match RepeatBlock.splitMark? (c :: t) with
    | some (ds, _) => some ⟨offset, ds, offset + markLength ds⟩
    | none => firstMark? (offset + c.utf8Size) t

/-- The last byte before an offset that is no blank. -/
def lastNonBlank (t : List Char) : (pos : Nat) → Work (Option Nat)
  | 0 => return none
  | pos + 1 => do
    if isAsciiBlank (← byteAt t pos) then lastNonBlank t pos else return some pos

/-- Walks back over the bytes before an offset to the bracket that opens the outermost of `depth`
open ones. -/
def openingBefore (t : List Char) (depth : Nat) : (pos : Nat) → Work (Option Nat)
  | 0 => return none
  | pos + 1 => do
    let c ← byteAt t pos
    if c = ']' then openingBefore t (depth + 1) pos
    else if c = '[' then
      let depth ← minus depth 1
      if depth = 0 then return some pos else openingBefore t depth pos
    else openingBefore t depth pos

/-- The brackets of the array that ends before an offset, blanks aside. -/
def arrayBefore (t : List Char) (pos : Nat) : Work (Option (Nat × Nat)) := do
  match ← lastNonBlank t pos with
  | none => return none
  | some closing =>
    if (← byteAt t closing) = ']' then
      return (← openingBefore t 1 closing).map fun opening => (opening, closing)
    else return none

/-- Replaces the repeat blocks of a text, from the first on, by quoted placeholders. -/
def extractFrom : (rounds : Nat) → (t : List Char) → Placeholders → Work (List Char × Placeholders)
  | 0, _, _ => throw .endless
  | rounds + 1, t, p => do
    match firstMark? 0 t with
    | none => return (t, p)
    | some mark =>
      match RepeatBlock.count? mark.digits with
      | none => return (t, p)
      | some count =>
        match ← arrayBefore t mark.start with
        | none => return (t, p)
        | some (opening, closing) =>
          let template ← slice t opening (closing + 1)
          let (placeholder, p) := p.recordBlock ⟨String.ofList template, count⟩
          let front ← slice t 0 opening
          let rest ← remaining t mark.stop
          extractFrom rounds (front ++ ('"' :: placeholder.toList ++ ['"']) ++ rest) p

def extract (t : List Char) (p : Placeholders) : Work (List Char × Placeholders) :=
  extractFrom (limit t) t p

end JsonTemplate.Bytewise
