import JsonTemplate.Bytewise.RepeatBlock
import JsonTemplate.Plan

/-!
# Plans by offsets

The root of a template is the first of two delimiters, and it ends one byte after the last delimiter
that closes it, if that comes after the root has begun. How far a repeat mark after it reaches is
told by the lengths with and without the blanks before the mark.
-/

namespace JsonTemplate.Bytewise

open Text

/-- The offset of the first occurrence of a character. -/
def offsetOf? (c : Char) : List Char → Option Nat
  | [] => none
  | d :: t => if d = c then some 0 else (offsetOf? c t).map (d.utf8Size + ·)

/-- The offset of the last occurrence of a character. -/
def lastOffsetOf? (c : Char) : List Char → Option Nat
  | [] => none
  | d :: t =>
    match lastOffsetOf? c t with
    | some n => some (d.utf8Size + n)
    | none => if d = c then some 0 else none

/-- The container of a template, and where it begins: at whichever opening delimiter comes first. -/
def findRoot? (t : List Char) : Option (Container × Nat) :=
  match offsetOf? '\x7b' t, offsetOf? '[' t with
  | some brace, some bracket =>
    if bracket < brace then some (.array, bracket) else some (.object, brace)
  | some brace, none => some (.object, brace)
  | none, some bracket => some (.array, bracket)
  | none, none => none

/-- Where a root that begins at `start` ends; one that is not closed goes on to the end. -/
def rootEnd (t : List Char) (container : Container) (start : Nat) : Nat :=
  match lastOffsetOf? container.closing t with
  | some last => if start < last then last + 1 else utf8Length t
  | none => utf8Length t

/-- A repeat mark at the head of a text, blanks aside: its count, and how many bytes it takes with
the blanks. -/
def headMark? (t : List Char) : Work (Option (Nat × Nat)) :=
  let trimmed := trimStart t
  match RepeatBlock.splitMark? trimmed with
  | none => return none
  | some (ds, _) =>
    match RepeatBlock.count? ds with
    | none => return none
    | some count =>
      return some (count, (← minus (utf8Length t) (utf8Length trimmed)) + markLength ds)

/-- The plan for a text with a root. -/
def plan? (t : List Char) : Work (Option Plan) := do
  match findRoot? t with
  | none => return none
  | some (container, start) =>
    let stop := rootEnd t container start
    let text ← slice t start stop
    if container = .array then
      match ← headMark? (← remaining t stop) with
      | some (count, _) => return some (.repeated text count)
      | none => return some (.once container text)
    else return some (.once container text)

/-- The template as it is written in a text, with a repeat mark after it. -/
def writtenTemplate? (t : List Char) : Work (Option (List Char)) := do
  match findRoot? t with
  | none => return none
  | some (container, start) =>
    let stop := rootEnd t container start
    match ← headMark? (← remaining t stop) with
    | some (_, length) => return some (← slice t start (stop + length))
    | none => return some (← slice t start stop)

end JsonTemplate.Bytewise
