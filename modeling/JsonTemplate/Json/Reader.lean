import JsonTemplate.Json.NumberReader
import JsonTemplate.Text.Blank

/-!
# Reading JSON texts

A text is read character by character. The state is the stack of the containers that wait for a
value and the phase that the innermost one is in, so that reading a text is reading its first part
and then the rest (`run_append`). Reading stops at the first character that no JSON text can have
there.
-/

namespace JsonTemplate.Json

open Text

/-- A container that waits for a value: the items so far, the last one first, or the fields so far
and the name of the next one. -/
inductive Frame
  | array (items : List Json)
  | object (fields : Fields) (key : String)

/-- What a string is read for. -/
inductive StringRole
  | value
  | key (fields : Fields)

/-- Where in a string the reader is. -/
inductive StringPart
  | plain
  | backslash
  /-- Within four hexadecimal digits: how many are read, their value, and the high surrogate
  before them. -/
  | hex (high : Option Nat) (count value : Nat)
  /-- After a high surrogate, a backslash is due. -/
  | pairBackslash (high : Nat)
  /-- After a high surrogate and a backslash, the letter of a second escape is due. -/
  | pairLetter (high : Nat)

inductive Phase
  /-- A value is due, after a colon or at the start. -/
  | value
  /-- A value or the end of a new array is due. -/
  | firstItem
  /-- A value is due after a comma. -/
  | nextItem (items : List Json)
  | firstKey
  | nextKey (fields : Fields)
  | colon (fields : Fields) (key : String)
  /-- After an item of an array; the last item comes first. -/
  | afterItem (items : List Json)
  | afterField (fields : Fields)
  | finished (v : Json)
  /-- Letters of a word are due. -/
  | word (rest : List Char) (v : Json)
  /-- Within a string; the last character comes first. -/
  | string (role : StringRole) (read : List Char) (part : StringPart)
  | number (draft : NumberDraft)

structure ReaderState where
  frames : List Frame
  phase : Phase

/-- What a character is refused for: a cause with its distance from the character, or a character
among four hexadecimal digits, after `read` good ones. -/
inductive Refusal
  | cause (c : SyntaxCause) (ahead : Nat)
  | badHex (read : Nat)

/-- The number of containers that may be open at a time. -/
def depthLimit : Nat := 127

namespace ReaderState

def initial : ReaderState :=
  ⟨[], .value⟩

/-- A complete value goes to the innermost container that waits for one. -/
def deliver (v : Json) : List Frame → ReaderState
  | [] => ⟨[], .finished v⟩
  | .array items :: frames => ⟨frames, .afterItem (v :: items)⟩
  | .object fields key :: frames => ⟨frames, .afterField (Fields.insert key v fields)⟩

def refuse (c : SyntaxCause) : Except Refusal ReaderState :=
  .error (.cause c 1)

/-- A new container opens unless too many are open. -/
def openContainer (frames : List Frame) (phase : Phase) : Except Refusal ReaderState :=
  if depthLimit ≤ frames.length then refuse .tooDeep else .ok ⟨frames, phase⟩

/-- The first character of a value. -/
def startValue (frames : List Frame) (c : Char) : Except Refusal ReaderState :=
  if c = '"' then .ok ⟨frames, .string .value [] .plain⟩
  else if c = '[' then openContainer frames .firstItem
  else if c = '\x7b' then openContainer frames .firstKey
  else if c = 'n' then .ok ⟨frames, .word ['u', 'l', 'l'] .null⟩
  else if c = 't' then .ok ⟨frames, .word ['r', 'u', 'e'] (.bool true)⟩
  else if c = 'f' then .ok ⟨frames, .word ['a', 'l', 's', 'e'] (.bool false)⟩
  else if c = '-' ∨ c.isDigit then .ok ⟨frames, .number (.start c)⟩
  else refuse .expectedValue

/-- A character between tokens, after a complete value. -/
def afterValue (s : ReaderState) (c : Char) : Except Refusal ReaderState :=
  if isJsonBlank c then .ok s
  else
    match s.phase with
    | .afterItem items =>
      if c = ',' then .ok ⟨s.frames, .nextItem items⟩
      else if c = ']' then .ok (deliver (.array items.reverse) s.frames)
      else refuse .expectedCommaOrBracket
    | .afterField fields =>
      if c = ',' then .ok ⟨s.frames, .nextKey fields⟩
      else if c = '\x7d' then .ok (deliver (.object fields) s.frames)
      else refuse .expectedCommaOrBrace
    | _ => refuse .trailingCharacters

/-- The phase after a complete string. -/
def endString (frames : List Frame) (role : StringRole) (read : List Char) : ReaderState :=
  let s := String.ofList read.reverse
  match role with
  | .value => deliver (.string s) frames
  | .key fields => ⟨frames, .colon fields s⟩

/-- The character that stands for a letter after a backslash. -/
def unescape? (c : Char) : Option Char :=
  if c = '"' ∨ c = '\\' ∨ c = '/' then some c
  else if c = 'b' then some '\x08'
  else if c = 'f' then some '\x0C'
  else if c = 'n' then some '\n'
  else if c = 'r' then some '\r'
  else if c = 't' then some '\t'
  else none

/-- The character of a surrogate pair. -/
def pairChar (high low : Nat) : Char :=
  Char.ofNat (0x10000 + (high - 0xD800) * 0x400 + (low - 0xDC00))

/-- What four hexadecimal digits give: the character, or a wait for the second half of a pair. -/
def endHex (high : Option Nat) (value : Nat) (read : List Char) :
    Except Refusal (List Char × StringPart) :=
  match high with
  | some h =>
    if 0xDC00 ≤ value ∧ value ≤ 0xDFFF then .ok (pairChar h value :: read, .plain)
    else .error (.cause .loneSurrogate 1)
  | none =>
    if 0xDC00 ≤ value ∧ value ≤ 0xDFFF then .error (.cause .loneSurrogate 1)
    else if 0xD800 ≤ value ∧ value ≤ 0xDBFF then .ok (read, .pairBackslash value)
    else .ok (Char.ofNat value :: read, .plain)

/-- A character within a string, other than the quote that ends it. -/
def stringStep (read : List Char) (part : StringPart) (c : Char) :
    Except Refusal (List Char × StringPart) :=
  match part with
  | .plain =>
    if c = '\\' then .ok (read, .backslash)
    else if c < ' ' then .error (.cause .controlCharacter 1)
    else .ok (c :: read, .plain)
  | .backslash =>
    if c = 'u' then .ok (read, .hex none 0 0)
    else
      match unescape? c with
      | some d => .ok (d :: read, .plain)
      | none => .error (.cause .invalidEscape 1)
  | .hex high count value =>
    match hexValue? c with
    | none => .error (.badHex count)
    | some d =>
      if count = 3 then endHex high (16 * value + d) read
      else .ok (read, .hex high (count + 1) (16 * value + d))
  | .pairBackslash high =>
    if c = '\\' then .ok (read, .pairLetter high) else .error (.cause .endOfHexEscape 1)
  | .pairLetter high =>
    if c = 'u' then .ok (read, .hex (some high) 0 0) else .error (.cause .endOfHexEscape 1)

def isPlain : StringPart → Bool
  | .plain => true
  | _ => false

def step (s : ReaderState) (c : Char) : Except Refusal ReaderState :=
  match s.phase with
  | .value => if isJsonBlank c then .ok s else startValue s.frames c
  | .firstItem =>
    if isJsonBlank c then .ok s
    else if c = ']' then .ok (deliver (.array []) s.frames)
    else startValue (.array [] :: s.frames) c
  | .nextItem items =>
    if isJsonBlank c then .ok s
    else if c = ']' then refuse .trailingComma
    else startValue (.array items :: s.frames) c
  | .firstKey =>
    if isJsonBlank c then .ok s
    else if c = '\x7d' then .ok (deliver (.object []) s.frames)
    else if c = '"' then .ok ⟨s.frames, .string (.key []) [] .plain⟩
    else refuse .keyMustBeString
  | .nextKey fields =>
    if isJsonBlank c then .ok s
    else if c = '\x7d' then refuse .trailingComma
    else if c = '"' then .ok ⟨s.frames, .string (.key fields) [] .plain⟩
    else refuse .keyMustBeString
  | .colon fields key =>
    if isJsonBlank c then .ok s
    else if c = ':' then .ok ⟨.object fields key :: s.frames, .value⟩
    else refuse .expectedColon
  | .afterItem _ | .afterField _ | .finished _ => s.afterValue c
  | .word [] v => .ok (deliver v s.frames)
  | .word (d :: rest) v =>
    if c ≠ d then refuse .expectedWord
    else if rest = [] then .ok (deliver v s.frames)
    else .ok ⟨s.frames, .word rest v⟩
  | .string role read part =>
    if c = '"' ∧ isPlain part then .ok (endString s.frames role read)
    else
      match stringStep read part c with
      | .ok (read, part) => .ok ⟨s.frames, .string role read part⟩
      | .error r => .error r
  | .number draft =>
    match draft.step c with
    | .more draft => .ok ⟨s.frames, .number draft⟩
    | .failed cause => refuse cause
    | .finished =>
      match draft.finish with
      | .ok n => (deliver (.number n) s.frames).afterValue c
      | .error cause => .error (.cause cause 0)

/-- The value at the end of a text, or what the text lacks. -/
def close (s : ReaderState) : Except SyntaxCause Json :=
  match s.phase with
  | .finished v => .ok v
  | .value | .nextItem _ | .nextKey _ | .word .. => .error .endInValue
  | .firstItem | .afterItem _ => .error .endInArray
  | .firstKey | .afterField _ | .colon .. => .error .endInObject
  | .string .. => .error .endInString
  | .number draft =>
    match draft.finish with
    | .error cause => .error cause
    | .ok n =>
      match (deliver (.number n) s.frames).phase with
      | .finished v => .ok v
      | .afterItem _ => .error .endInArray
      | _ => .error .endInObject

end ReaderState

/-- Where a refusal stops the reader, given the text from the refused character on. Hexadecimal
digits are taken four bytes at a time: a text too short for them ends in a string, whatever its
characters. -/
def Refusal.toStop (unread : List Char) : Refusal → Stop
  | .cause c ahead => ⟨c, unread, ahead⟩
  | .badHex read =>
    if read + utf8Length unread < 4 then ⟨.endInString, [], 0⟩
    else ⟨.invalidEscape, unread, 4 - read⟩

/-- Reads a text from a state on. -/
def run (s : ReaderState) : List Char → Except Stop ReaderState
  | [] => .ok s
  | c :: t =>
    match s.step c with
    | .ok s => run s t
    | .error r => .error (r.toStop (c :: t))

/-- Reads a whole text as one value. -/
def read (t : List Char) : Except SyntaxError Json :=
  match run .initial t with
  | .error stop => .error (stop.toError t)
  | .ok s =>
    match s.close with
    | .ok v => .ok v
    | .error cause => .error ((Stop.mk cause [] 0).toError t)

/-- A text that is read without a stop brings the reader to a state, from which the rest is read. -/
theorem run_append {s s' : ReaderState} {t : List Char} (h : run s t = .ok s') (u : List Char) :
    run s (t ++ u) = run s' u := by
  induction t generalizing s with
  | nil => cases h; rfl
  | cons c t ih =>
    simp only [run, List.cons_append] at h ⊢
    cases hc : s.step c with
    | ok s₁ =>
      simp only [hc] at h ⊢
      exact ih h
    | error r => simp [hc] at h

end JsonTemplate.Json
