import JsonTemplate.Json.Printer
import JsonTemplate.Decimal.Numeral
import JsonTemplate.Text.Blank
import JsonTemplate.Text.Position
import JsonTemplate.Text.Split
import JsonTemplate.Width

/-!
# Directives

A directive names a generated value: `@name` or `@namespace.method`, with arguments in round
brackets. `Token.split?` takes the longest token off the head of a text and loses nothing
(`Token.split?_append`); `Directive.parse?` reads a whole text, and allows blanks around it and
before the bracket.
-/

namespace JsonTemplate

open Text

/-- A token as it is written: names, and the text between the brackets. -/
structure Token where
  name : List Char
  method : Option (List Char)
  arguments : Option (List Char)
  deriving DecidableEq

namespace Token

def isNameStart (c : Char) : Bool :=
  c.isAlpha || c == '_'

def isNameChar (c : Char) : Bool :=
  c.isAlphanum || c == '_'

/-- Takes a name off the head of a text. -/
def splitName? : List Char → Option (List Char × List Char)
  | [] => none
  | c :: t =>
    if isNameStart c then some (c :: t.takeWhile isNameChar, t.dropWhile isNameChar) else none

/-- Takes a point and a name off the head of a text, if they are there. -/
def splitMethod : List Char → Option (List Char) × List Char
  | '.' :: t =>
    match splitName? t with
    | some (method, rest) => (some method, rest)
    | none => (none, '.' :: t)
  | t => (none, t)

/-- Takes a bracketed list off the head of a text, if it is there. The list ends at the first
closing bracket, and a bracket that is never closed opens no list. -/
def splitArguments : List Char → Option (List Char) × List Char
  | '(' :: t =>
    match t.dropWhile (· != ')') with
    | _ :: rest => (some (t.takeWhile (· != ')')), rest)
    | [] => (none, '(' :: t)
  | t => (none, t)

/-- Takes the longest token off the head of a text. -/
def split? : List Char → Option (Token × List Char)
  | '@' :: t => do
    let (name, t) ← splitName? t
    let (method, t) := splitMethod t
    let (arguments, t) := splitArguments t
    return (⟨name, method, arguments⟩, t)
  | _ => none

def methodText : Option (List Char) → List Char
  | some m => '.' :: m
  | none => []

def argumentsText : Option (List Char) → List Char
  | some a => '(' :: a ++ [')']
  | none => []

/-- The token as it is written. -/
def text (k : Token) : List Char :=
  '@' :: k.name ++ methodText k.method ++ argumentsText k.arguments

theorem splitName?_append {t name rest : List Char} (h : splitName? t = some (name, rest)) :
    name ++ rest = t := by
  match t, h with
  | c :: t, h =>
    simp only [splitName?] at h
    split at h
    · cases h; simp
    · cases h

theorem splitMethod_append (t : List Char) :
    methodText (splitMethod t).1 ++ (splitMethod t).2 = t := by
  unfold splitMethod
  split
  · rename_i t
    cases hn : splitName? t with
    | none => simp [methodText]
    | some p => simpa [methodText] using splitName?_append hn
  · rfl

theorem eq_of_dropWhile_ne {t rest : List Char} {c d : Char}
    (h : t.dropWhile (· != d) = c :: rest) : c = d := by
  have := List.head?_dropWhile_not (· != d) t
  simp only [h, List.head?_cons] at this
  simpa using this

theorem splitArguments_append (t : List Char) :
    argumentsText (splitArguments t).1 ++ (splitArguments t).2 = t := by
  unfold splitArguments
  split
  · rename_i t
    cases hd : t.dropWhile (· != ')') with
    | nil => simp [argumentsText]
    | cons c rest =>
      have hc := eq_of_dropWhile_ne hd
      have := List.takeWhile_append_dropWhile (p := (· != ')')) (l := t)
      rw [hd, hc] at this
      simpa [argumentsText] using this
  · rfl

theorem split?_append {t rest : List Char} {k : Token} (h : split? t = some (k, rest)) :
    k.text ++ rest = t := by
  unfold split? at h
  split at h
  · rename_i t
    cases hn : splitName? t with
    | none => simp [hn] at h
    | some p =>
      obtain ⟨name, t₁⟩ := p
      simp only [hn, Option.bind_eq_bind, Option.bind_some, Option.pure_def, Option.some.injEq,
        Prod.mk.injEq] at h
      obtain ⟨rfl, rfl⟩ := h
      simp [text, splitArguments_append, splitMethod_append, splitName?_append hn]
  · cases h

/-- The length in bytes of the token at the head of a text. -/
def length? (t : List Char) : Option Nat :=
  (split? t).map fun p => utf8Length p.1.text

/-- Whether a text is one token and nothing else. -/
def isToken (t : List Char) : Bool :=
  match split? t with
  | some (_, []) => true
  | _ => false

end Token

/-- A reference to a generated value; `name` is the namespace when there is a method. -/
structure Directive where
  name : String
  method : Option String
  args : List Json

namespace Directive

/-- An argument is a 64-bit integer, a finite double or else a text, without the blanks around
it. -/
def readArgument (t : List Char) : Json :=
  let t := trim t
  match readInt? Width.leastInt64 Width.greatestInt64 t with
  | some n => .ofInt n
  | none =>
    match (Numeral.read? t).map Numeral.toBinary64 with
    | some x => if x.isFinite then .number (.float x) else .string (String.ofList t)
    | none => .string (String.ofList t)

/-- The arguments in a list; a blank list has none. -/
def parseArguments (t : List Char) : List Json :=
  if t.all isBlank then [] else (splitOn ',' t).map readArgument

def ofToken (k : Token) : Directive where
  name := String.ofList k.name
  method := k.method.map String.ofList
  args := (k.arguments.map parseArguments).getD []

/-- Reads a whole text as one directive. -/
def parse? (t : List Char) : Option Directive :=
  match trim t with
  | '@' :: t => do
    let (name, t) ← Token.splitName? t
    let (method, t) := Token.splitMethod t
    match Token.splitArguments (trimStart t) with
    | (arguments, []) => return ofToken ⟨name, method, arguments⟩
    | _ => none
  | _ => none

/-- A name without method or arguments, whatever its characters. -/
def ofName (name : List Char) : Directive :=
  ⟨String.ofList name, none, []⟩

/-- The namespace and the method with a point between them, or the bare name. -/
def path (d : Directive) : String :=
  match d.method with
  | some m => d.name ++ "." ++ m
  | none => d.name

/-- The text of a directive; its arguments are written as they print. -/
def display (d : Directive) : String :=
  "@" ++ d.path ++
    if d.args.isEmpty then "" else "(" ++ ", ".intercalate (d.args.map Json.display) ++ ")"

end Directive

end JsonTemplate
