import JsonTemplate.Generator.Basic
import JsonTemplate.Generator.Vocabulary

/-!
# Generated texts

Strings over an alphabet, identifiers, and words strung together.
-/

namespace JsonTemplate.Generator

open KeyStream

def digits : List Char := "0123456789".toList

def hexDigits : List Char := "0123456789abcdef".toList

def letters : List Char :=
  "ABCDEFGHIJKLMNOPQRSTUVWXYZabcdefghijklmnopqrstuvwxyz".toList

def lettersAndDigits : List Char := letters ++ digits

def passwordCharacters : List Char := lettersAndDigits ++ ['_']

/-- The alphabet of short identifiers that may stand in a web address. -/
def identifierCharacters : List Char :=
  "useandom-26T198340PX75pxJACKVERYMINDBUSHWOLF_GQZbfghjklqvwyzrict".toList

/-- A text over an alphabet, whose length is the argument. -/
def string (alphabet : List Char) (defaultLength : Nat) : Method := fun _ args => do
  let count ← lengthArgument args defaultLength
  checkSize 1 count
  return .string (← draw (characters alphabet count))

/-- The two digits of a byte. -/
def byteText (b : Nat) : List Char :=
  [Nat.digitChar (b / 16), Nat.digitChar (b % 16)]

/-- Sixteen bytes in groups of 4, 2, 2, 2 and 6, with the version and the variant of a random
identifier set. -/
def uuid : StateM KeyStream String := do
  let bs ← bytes 16
  let group (start count : Nat) : List Char := ((bs.drop start).take count).flatMap byteText
  let version := byteText ((bs.getD 6 0) % 16 + 0x40) ++ group 7 1
  let variant := byteText ((bs.getD 8 0) % 64 + 0x80) ++ group 9 1
  return String.ofList
    (['-'].intercalate [group 0 4, group 4 2, version, variant, group 10 6])

def words (separator : String) (count : Nat) : StateM KeyStream String := do
  return separator.intercalate (← drawList count (pickText Vocabulary.loremWords))

/-- The size in bytes of a word, and of a sentence, in a list. -/
def wordSize : Nat := 16
def sentenceSize : Nat := 24

/-- Words joined by a separator, as many as the argument says. -/
def wordList (separator : String) : Method := fun _ args => do
  let count ← lengthArgument args 3
  checkSize wordSize count
  return .string (← draw (words separator count))

def capitalize (s : String) : String :=
  match s.toList with
  | [] => ""
  | c :: t => String.ofList (c.toUpper :: t)

/-- Words with a capital and a full stop, one at least. -/
def sentenceOf (count : Nat) : StateM KeyStream String := do
  return capitalize (← words " " (max 1 count)) ++ "."

/-- A sentence of three to ten words. -/
def anySentence : StateM KeyStream String := do
  let count ← intBetween 3 10
  sentenceOf count.toNat

def sentence : Method := fun _ args =>
  match args with
  | [] => return .string (← draw anySentence)
  | args => do
    let count ← lengthArgument args 0
    checkSize wordSize count
    return .string (← draw (sentenceOf count))

def paragraph : Method := fun _ args => do
  let count ← lengthArgument args 3
  checkSize sentenceSize count
  return .string (" ".intercalate (← draw (drawList count anySentence)))

end JsonTemplate.Generator
