import JsonTemplate.Calendar.Date
import JsonTemplate.Json.Basic
import JsonTemplate.Text.Digit

/-!
# Timestamps

Instants are written as `2024-01-31T23:59:59.000Z`, and texts of the wider form of RFC 3339 are
recognised for their date. `dateOf` reduces a timestamp to the date that is written in it: an
offset does not move the date.
-/

namespace JsonTemplate.Calendar

open Text

/-- A number with noughts in front, to a least width. -/
def padded (width n : Nat) : List Char :=
  let ds := natText n
  List.replicate (width - ds.length) '0' ++ ds

/-- Four digits, or more with a sign outside the years 0 to 9999. -/
def yearText (year : Int) : List Char :=
  if 0 ≤ year ∧ year ≤ 9999 then padded 4 year.natAbs
  else (if year < 0 then '-' else '+') :: padded 4 year.natAbs

def Date.text (d : Date) : List Char :=
  yearText d.year ++ '-' :: padded 2 d.month ++ '-' :: padded 2 d.day

/-- A point in time, in milliseconds since the beginning of 1970. -/
structure Instant where
  milliseconds : Int
  deriving DecidableEq, Repr

namespace Instant

def dayMilliseconds : Int := 86400000

/-- Takes a number of milliseconds apart into hours, minutes, seconds and milliseconds. -/
def clockText (ms : Nat) : List Char :=
  padded 2 (ms / 3600000) ++ ':' :: padded 2 (ms / 60000 % 60) ++ ':' :: padded 2 (ms / 1000 % 60)
    ++ '.' :: padded 3 (ms % 1000)

def text (i : Instant) : List Char :=
  (Date.ofDayNumber (i.milliseconds / dayMilliseconds)).text
    ++ 'T' :: clockText (i.milliseconds % dayMilliseconds).toNat ++ ['Z']

/-- The first and the last instant of the years that a timestamp may have. -/
def first : Instant :=
  ⟨(Date.mk (-262143) 1 1).dayNumber * dayMilliseconds⟩

def last : Instant :=
  ⟨((Date.mk 262142 12 31).dayNumber + 1) * dayMilliseconds - 1⟩

/-- The instant a number of seconds later, if it is within the years allowed. -/
def addSeconds? (i : Instant) (seconds : Int) : Option Instant :=
  let ms := i.milliseconds + seconds * 1000
  if first.milliseconds ≤ ms ∧ ms ≤ last.milliseconds then some ⟨ms⟩ else none

end Instant

/-- Takes digits off the head of a text, just so many, and gives their number. -/
def splitDigits? (count : Nat) (t : List Char) : Option (Nat × List Char) :=
  let ds := t.take count
  if ds.length = count ∧ ds.all Char.isDigit then some (natOfDigits ds, t.drop count) else none

/-- Takes a character of a class off the head of a text. -/
def splitChar? (p : Char → Bool) : List Char → Option (List Char)
  | c :: t => if p c then some t else none
  | [] => none

/-- Takes a date `YYYY-MM-DD` off the head of a text. -/
def splitDate? (t : List Char) : Option (Date × List Char) := do
  let (year, t) ← splitDigits? 4 t
  let t ← splitChar? (· == '-') t
  let (month, t) ← splitDigits? 2 t
  let t ← splitChar? (· == '-') t
  let (day, t) ← splitDigits? 2 t
  let date : Date := ⟨year, month, day⟩
  if date.isValid then some (date, t) else none

/-- Takes a time `hh:mm:ss` off the head of a text; a minute may have a leap second. -/
def splitTime? (t : List Char) : Option (List Char) := do
  let (hour, t) ← splitDigits? 2 t
  let t ← splitChar? (· == ':') t
  let (minute, t) ← splitDigits? 2 t
  let t ← splitChar? (· == ':') t
  let (second, t) ← splitDigits? 2 t
  if hour ≤ 23 ∧ minute ≤ 59 ∧ second ≤ 60 then some t else none

/-- Takes a fraction of a second off the head of a text; without a point there is none, and a
point needs digits. -/
def splitSecondFraction? : List Char → Option (List Char)
  | '.' :: t => if t.takeWhile Char.isDigit = [] then none else some (t.dropWhile Char.isDigit)
  | t => some t

/-- Whether a text is a zone: `Z`, or a signed offset of less than a day. -/
def isZone : List Char → Bool
  | [c] => c == 'Z' || c == 'z'
  | c :: t =>
    (c == '+' || c == '-' || c == '\u2212') &&
      match (do
        let (hour, t) ← splitDigits? 2 t
        let t ← splitChar? (· == ':') t
        let (minute, t) ← splitDigits? 2 t
        if hour ≤ 23 ∧ minute ≤ 59 ∧ t = [] then some () else none : Option Unit) with
      | some _ => true
      | none => false
  | [] => false

/-- The date of a text that is a timestamp. -/
def timestampDate? (t : List Char) : Option Date := do
  let (date, t) ← splitDate? t
  let t ← splitChar? (fun c => c == 'T' || c == 't' || c == ' ') t
  let t ← splitTime? t
  let t ← splitSecondFraction? t
  if isZone t then some date else none

/-- The date in a text: that of a timestamp, or else what stands before the first `T`. -/
def dateText (t : List Char) : List Char :=
  match timestampDate? t with
  | some date => date.text
  | none => t.takeWhile (· != 'T')

/-- A string is reduced to its date; other values stay. -/
def dateOf : Json → Json
  | .string s => .string (String.ofList (dateText s.toList))
  | v => v

/-- Reads a year as `yearText` writes it. -/
def splitYear? : List Char → Option (Int × List Char)
  | '-' :: t => some (-(natOfDigits (t.takeWhile Char.isDigit) : Int), t.dropWhile Char.isDigit)
  | '+' :: t => some ((natOfDigits (t.takeWhile Char.isDigit) : Int), t.dropWhile Char.isDigit)
  | t => (splitDigits? 4 t).map fun (year, t) => ((year : Int), t)

/-- Reads an instant as `Instant.text` writes it. -/
def Instant.read? (t : List Char) : Option Instant := do
  let (year, t) ← splitYear? t
  let t ← splitChar? (· == '-') t
  let (month, t) ← splitDigits? 2 t
  let t ← splitChar? (· == '-') t
  let (day, t) ← splitDigits? 2 t
  let t ← splitChar? (· == 'T') t
  let (hour, t) ← splitDigits? 2 t
  let t ← splitChar? (· == ':') t
  let (minute, t) ← splitDigits? 2 t
  let t ← splitChar? (· == ':') t
  let (second, t) ← splitDigits? 2 t
  let t ← splitChar? (· == '.') t
  let (ms, t) ← splitDigits? 3 t
  let date : Date := ⟨year, month, day⟩
  if t = ['Z'] ∧ date.isValid then
    let clock : Nat := ((hour * 60 + minute) * 60 + second) * 1000 + ms
    some ⟨date.dayNumber * dayMilliseconds + clock⟩
  else none

end JsonTemplate.Calendar
