import JsonTemplate.Bytewise.Basic
import JsonTemplate.Expression

/-!
# Expressions by offsets

A part of an expression is cut out between the sign before it and the sign after it, which are one
byte each. A part in quotes is cut once more, a byte from either end.
-/

namespace JsonTemplate.Bytewise

open Text

/-- Cuts a text at its top-level signs: `rest` begins at the offset `pos`, and the part that it goes
on began at `start`; `parts` has those before. -/
def splitFrom (t : List Char) (start : Nat) (parts : List (List Char)) :
    Cursor → (pos : Nat) → (rest : List Char) → Work (List (List Char))
  | _, _, [] => return parts ++ [← remaining t start]
  | s, pos, c :: rest => do
    if s = .top ∧ c = '+' then
      splitFrom t (pos + 1) (parts ++ [← slice t start pos]) s (pos + c.utf8Size) rest
    else splitFrom t start parts (s.next c) (pos + c.utf8Size) rest

def splitAtSigns (t : List Char) : Work (List (List Char)) :=
  splitFrom t 0 [] .top 0 t

/-- Whether a text of two bytes or more begins and ends with a quote. -/
def isBetween (quote : Char) (t : List Char) : Bool :=
  2 ≤ utf8Length t && t.head? == some quote && t.getLast? == some quote

/-- The text without its first and its last byte. -/
def inner (t : List Char) : Work (List Char) := do
  slice t 1 (← minus (utf8Length t) 1)

/-- What a part of an expression is, without the blanks around it. -/
def parseSegment (t : List Char) : Work Segment := do
  match t with
  | '@' :: rest => return .directive ((Directive.parse? t).getD (.ofName rest))
  | _ =>
    if isBetween '"' t then
      match Json.read t with
      | .ok (.string s) => return .literal s
      | _ => return .literal (String.ofList (← inner t))
    else if isBetween '\'' t then return .literal (String.ofList (← inner t))
    else return .verbatim (String.ofList t)

/-- The segments of an expression, from left to right. -/
def parse (t : List Char) : Work (List Segment) := do
  (← splitAtSigns t).mapM fun part => parseSegment (trim part)

end JsonTemplate.Bytewise
