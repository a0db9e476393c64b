import JsonTemplate.Decimal.Layout
import JsonTemplate.Json.Basic

/-!
# JSON texts

Two ways of writing a value: compact, without any blank, and indented by two spaces a level with
one item a line. Strings are escaped character by character, so that quoting is a `flatMap`.
-/

namespace JsonTemplate.Json

open Text

/-- A digit of a four-digit escape, in lower case. -/
def hexDigit (n : Nat) : Char :=
  Nat.digitChar n

/-- A quote, a backslash and the control characters below the space are escaped. -/
def escapeChar (c : Char) : List Char :=
  if c = '"' then ['\\', '"']
  else if c = '\\' then ['\\', '\\']
  else if c = '\x08' then ['\\', 'b']
  else if c = '\x0C' then ['\\', 'f']
  else if c = '\n' then ['\\', 'n']
  else if c = '\r' then ['\\', 'r']
  else if c = '\t' then ['\\', 't']
  else if c < ' ' then ['\\', 'u', '0', '0', hexDigit (c.toNat / 16), hexDigit (c.toNat % 16)]
  else [c]

/-- The JSON string that denotes a text. -/
def quoted (t : List Char) : List Char :=
  '"' :: t.flatMap escapeChar ++ ['"']

/-- Digits are the fewest that read back, a tie going to the even digit. The point stands in place
when it comes after at most sixteen digits and at most four noughts follow it; a float never looks
like an integer. -/
def floatText : Binary64 → List Char
  | .finite s m e =>
    if m = 0 then Decimal.signed s ['0', '.', '0']
    else
      let d := Decimal.shortest .toEven m e
      Decimal.signed s <|
        if -5 < d.pointPlace ∧ d.pointPlace ≤ 16 then
          if 0 ≤ d.exponent then d.positional ++ ['.', '0'] else d.positional
        else d.scientific
  | _ => ['n', 'u', 'l', 'l']

def numberText : JsonNumber → List Char
  | .integer n => intText n
  | .float x => floatText x

def boolText (b : Bool) : List Char :=
  if b then ['t', 'r', 'u', 'e'] else ['f', 'a', 'l', 's', 'e']

mutual

/-- The text of a value without blanks. -/
def compactText : Json → List Char
  | .null => ['n', 'u', 'l', 'l']
  | .bool b => boolText b
  | .number n => numberText n
  | .string s => quoted s.toList
  | .array items => '[' :: [','].intercalate (compactItems items) ++ [']']
  | .object fields => '\x7b' :: [','].intercalate (compactFields fields) ++ ['\x7d']

def compactItems : List Json → List (List Char)
  | [] => []
  | item :: rest => compactText item :: compactItems rest

def compactFields : Fields → List (List Char)
  | [] => []
  | (key, value) :: rest => (quoted key.toList ++ ':' :: compactText value) :: compactFields rest

end

/-- A line feed and the indentation of a level. -/
def newLine (level : Nat) : List Char :=
  '\n' :: List.replicate (2 * level) ' '

/-- Brackets around members, each on a line of its own one level deeper. -/
def bracketed (opening closing : Char) (level : Nat) (members : List (List Char)) : List Char :=
  if members = [] then [opening, closing]
  else opening :: newLine (level + 1) ++ (',' :: newLine (level + 1)).intercalate members
    ++ newLine level ++ [closing]

mutual

/-- The indented text of a value that stands at a level. -/
def indentedText (level : Nat) : Json → List Char
  | .null => ['n', 'u', 'l', 'l']
  | .bool b => boolText b
  | .number n => numberText n
  | .string s => quoted s.toList
  | .array items => bracketed '[' ']' level (indentedItems (level + 1) items)
  | .object fields => bracketed '\x7b' '\x7d' level (indentedFields (level + 1) fields)

def indentedItems (level : Nat) : List Json → List (List Char)
  | [] => []
  | item :: rest => indentedText level item :: indentedItems level rest

def indentedFields (level : Nat) : Fields → List (List Char)
  | [] => []
  | (key, value) :: rest =>
    (quoted key.toList ++ ':' :: ' ' :: indentedText level value) :: indentedFields level rest

end

def compact (v : Json) : String :=
  String.ofList v.compactText

def pretty (v : Json) : String :=
  String.ofList (v.indentedText 0)

/-- The text that a value contributes where it is joined to other texts: a string stands for
itself. -/
def display : Json → String
  | .string s => s
  | v => v.compact

end JsonTemplate.Json
