import JsonTemplate.Directive
import JsonTemplate.Json.Reader

/-!
# Expressions

Segments joined by `+`. A text is cut at every `+` outside double quotes and round brackets; the
parts joined by `+` are the text (`intercalate_splitAtSigns`).
-/

namespace JsonTemplate

open Text

/-- Where a scan for top-level signs stands, with the number of open brackets. -/
inductive Cursor
  | outside (depth : Nat)
  | quoted (depth : Nat)
  /-- Within quotes, after a backslash. -/
  | escaped (depth : Nat)
  deriving DecidableEq

namespace Cursor

/-- A closing bracket without an opening one does not count. -/
def next : Cursor → Char → Cursor
  | .outside depth, c =>
    if c = '"' then .quoted depth
    else if c = '(' then .outside (depth + 1)
    else if c = ')' then .outside (depth - 1)
    else .outside depth
  | .quoted depth, c =>
    if c = '\\' then .escaped depth
    else if c = '"' then .outside depth
    else .quoted depth
  | .escaped depth, _ => .quoted depth

def top : Cursor := .outside 0

end Cursor

/-- Cuts a text at the signs that are at the top level, seen from a cursor. -/
def splitFrom : Cursor → List Char → List (List Char)
  | _, [] => [[]]
  | s, c :: t =>
    if s = .top ∧ c = '+' then [] :: splitFrom .top t
    else (splitFrom (s.next c) t).modifyHead (c :: ·)

def splitAtSigns (t : List Char) : List (List Char) :=
  splitFrom .top t

theorem splitFrom_ne_nil (s : Cursor) (t : List Char) : splitFrom s t ≠ [] := by
  cases t with
  | nil => simp [splitFrom]
  | cons c t =>
    simp only [splitFrom]
    split
    · simp
    · simpa using splitFrom_ne_nil (s.next c) t

theorem intercalate_splitFrom (s : Cursor) (t : List Char) :
    ['+'].intercalate (splitFrom s t) = t := by
  induction t generalizing s with
  | nil => simp [splitFrom, List.intercalate]
  | cons c t ih =>
    simp only [splitFrom]
    split
    · rename_i h
      have ih := ih .top
      match hs : splitFrom .top t, splitFrom_ne_nil .top t with
      | p :: ps, _ => simpa [List.intercalate, hs, h.2] using ih
    · rw [intercalate_modifyHead (splitFrom_ne_nil _ _), ih]

theorem intercalate_splitAtSigns (t : List Char) : ['+'].intercalate (splitAtSigns t) = t :=
  intercalate_splitFrom .top t

inductive Segment
  /-- A quoted text, without its quotes. -/
  | literal (s : String)
  /-- A text that is neither quoted nor a directive. -/
  | verbatim (s : String)
  | directive (d : Directive)

namespace Segment

/-- The text between two quotes that begin and end it. -/
def unquote? (quote : Char) (t : List Char) : Option (List Char) :=
  if 2 ≤ t.length ∧ t.head? = some quote ∧ t.getLast? = some quote then some t.tail.dropLast
  else none

/-- The text that a double-quoted literal denotes; one that is no JSON string stands for what is
between its quotes. -/
def decode (t inner : List Char) : String :=
  match Json.read t with
  | .ok (.string s) => s
  | _ => String.ofList inner

/-- What a part of an expression is, without the blanks around it. -/
def parse (t : List Char) : Segment :=
  match t with
  | '@' :: rest => .directive ((Directive.parse? t).getD (.ofName rest))
  | _ =>
    match unquote? '"' t with
    | some inner => .literal (decode t inner)
    | none =>
      match unquote? '\'' t with
      | some inner => .literal (String.ofList inner)
      | none => .verbatim (String.ofList t)

end Segment

namespace Expression

/-- The segments of an expression, from left to right. -/
def parse (t : List Char) : List Segment :=
  (splitAtSigns t).map fun part => Segment.parse (trim part)

def isJoined (segments : List Segment) : Bool :=
  1 < segments.length

/-- Whether a pair of round brackets occurs. -/
def hasCall (t : List Char) : Bool :=
  (t.dropWhile (· != '(')).contains ')'

/-- Whether a point occurs before a character that can begin a name. -/
def hasMember : List Char → Bool
  | '.' :: c :: t => Token.isNameStart c || hasMember (c :: t)
  | _ :: t => hasMember t
  | [] => false

/-- Whether a text is worth evaluating: it mentions a directive beside a sign, a call or a
member. -/
def isLikely (t : List Char) : Bool :=
  t.contains '@' && (t.contains '+' || hasCall t || hasMember t)

end Expression

end JsonTemplate
