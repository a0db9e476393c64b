import JsonTemplate.Calendar.Timestamp
import JsonTemplate.Json.Printer
import JsonTemplate.KeyStream.Sampling
import JsonTemplate.ValueSource

/-!
# Generators

A generator makes a value from arguments and a key stream. This module holds what they share: how
draws are made, and how arguments are read, either as one object of options or one by one.
-/

namespace JsonTemplate.Generator

open KeyStream

/-- A drawing that may refuse its arguments. -/
abbrev Gen (α : Type) := Served KeyStream α

/-- A generator knows the present instant and gets the arguments. -/
abbrev Method := Calendar.Instant → List Json → Gen Json

/-- A draw, which never fails. -/
def draw {α : Type} (d : StateM KeyStream α) : Gen α :=
  ExceptT.lift fun s => .ok (d.run s)

def halt {α : Type} (h : Halt) : Gen α :=
  ExceptT.lift fun _ => .error h

def invalid {α : Type} (text : String) : Gen α :=
  throw (.invalidArgument text)

/-- A generator that ignores its arguments and makes a text. -/
def textual (d : StateM KeyStream String) : Method := fun _ _ =>
  return .string (← draw d)

/-- The options, if there is an argument. Anything but an object is refused. -/
def options (args : List Json) : Gen (Option Json.Fields) :=
  match args with
  | [] => return none
  | .object fields :: _ => return some fields
  | other :: _ => invalid ("expected an options object, got " ++ other.compact)

/-- An option that is a number; if it is missing or of another kind the default holds. -/
def numberOption (fields : Json.Fields) (key : String) (default : Binary64) : Binary64 :=
  ((Json.Fields.get? key fields).bind Json.toBinary64?).getD default

/-- The length of a text, as the first argument or an option, with its fraction cut off. -/
def lengthArgument (args : List Json) (default : Nat) : Gen Nat :=
  let read (v : Json) : Gen Nat :=
    match v.toBinary64? with
    | some x =>
      if (Binary64.zero false).le x then return (x.truncate 0 Width.greatestNat64).toNat
      else invalid ("expected a length, got " ++ v.compact)
    | none => invalid ("expected a length, got " ++ v.compact)
  match args with
  | [] => return default
  | .object fields :: _ =>
    match Json.Fields.get? "length" fields with
    | some v => read v
    | none => return default
  | v :: _ => read v

/-- The greatest number of bytes that a text or a list can take. -/
def greatestSize : Nat := 0x7FFFFFFFFFFFFFFF

/-- Stops all if so many members of a size in bytes can never be held. -/
def checkSize (size count : Nat) : Gen Unit :=
  if greatestSize < size * count then halt .endlessText else return ()

/-- Members drawn one after another. -/
def drawList {α : Type} (count : Nat) (d : StateM KeyStream α) : StateM KeyStream (List α) :=
  go count []
where
  go : Nat → List α → StateM KeyStream (List α)
    | 0, drawn => return drawn.reverse
    | n + 1, drawn => do
      let x ← d
      go n (x :: drawn)

/-- A text of characters from an alphabet. -/
def characters (alphabet : List Char) (count : Nat) : StateM KeyStream String := do
  return String.ofList (← drawList count (pick alphabet ' '))

def pickText (members : List String) : StateM KeyStream String :=
  pick members ""

def natBetween (low high : Nat) : StateM KeyStream String := do
  return String.ofList (Text.intText (← intBetween low high))

end JsonTemplate.Generator
