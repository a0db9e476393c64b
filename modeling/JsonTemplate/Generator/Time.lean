import JsonTemplate.Generator.Number

/-!
# Generated times

Timestamps near the present, and dates of birth by age or by year. A time outside the calendar's
years is refused.
-/

namespace JsonTemplate.Generator

open Calendar KeyStream Text

def daySeconds : Int := 86400

def timestamp (i : Instant) : Json :=
  .string (String.ofList i.text)

def integerText (n : Int) : String :=
  String.ofList (intText n)

/-- The number of days that a relative time may lie away. -/
def dayBound (args : List Json) (default : Binary64) : Gen Binary64 :=
  match args with
  | [] => return default
  | .object fields :: _ => return numberOption fields "days" default
  | .number n :: _ => return n.toBinary64
  | other :: _ => invalid ("expected options, got " ++ other.compact)

/-- A time up to some days away from the present, at least a second. -/
def relativeTime (defaultDays : Int) (forward : Bool) : Method := fun now args => do
  let days ← dayBound args (.ofInt defaultDays)
  if days.le (.zero false) then invalid ("days must be positive, got " ++ plain days)
  else
    let span := toInt64 (days * .ofInt daySeconds)
    let seconds ← draw (intBetween 1 (max 1 span))
    match now.addSeconds? (if forward then seconds else -seconds) with
    | some i => return timestamp i
    | none => invalid (plain days ++ " days is out of range")

/-- A bound of an age or a year, cut to a whole number within the given range. -/
def wholeBound (fields : Option Json.Fields) (key : String) (default low high : Int) : Int :=
  ((fields.map (numberOption · key (.ofInt default))).getD (.ofInt default)).truncate low high

/-- A birth so many years of 365 days ago, with a day more for every fourth year, and up to a year
before that. -/
def birthByAge (now : Instant) (fields : Option Json.Fields) : Gen Json := do
  let min := wholeBound fields "min" 18 Width.leastInt64 Width.greatestInt64
  let max := wholeBound fields "max" 80 Width.leastInt64 Width.greatestInt64
  if min < 0 ∨ max < min then
    invalid ("invalid age range " ++ integerText min ++ ".." ++ integerText max)
  else
    let age ← draw (intBetween min max)
    let extra ← draw (intBetween 0 364)
    let days := 365 * age + (age / 4 + extra)
    match now.addSeconds? (-(days * daySeconds)) with
    | some i => return timestamp i
    | none => invalid ("age " ++ integerText age ++ " is out of range")

/-- A birth at the beginning of one of the first 365 days of a year. -/
def birthByYear (fields : Option Json.Fields) : Gen Json := do
  let min := wholeBound fields "min" 1950 Width.leastInt32 Width.greatestInt32
  let max := wholeBound fields "max" 2005 Width.leastInt32 Width.greatestInt32
  if max < min then
    invalid ("invalid year range " ++ integerText min ++ ".." ++ integerText max)
  else
    let year ← draw (intBetween min max)
    let day ← draw (intBetween 1 365)
    let i : Instant :=
      ⟨(Date.ofDayOfYear year (day - 1).toNat).dayNumber * Instant.dayMilliseconds⟩
    if Instant.first.milliseconds ≤ i.milliseconds ∧ i.milliseconds ≤ Instant.last.milliseconds
    then return timestamp i
    else invalid ("year " ++ integerText year ++ " out of range")

def birthdate : Method := fun now args => do
  let fields ← options args
  let mode := ((fields.bind (Json.Fields.get? "mode")).bind Json.toString?).getD "age"
  if mode = "age" then birthByAge now fields
  else if mode = "year" then birthByYear fields
  else invalid ("unknown birthdate mode " ++ mode)

/-- A time within a year of the present, on either side. -/
def anytime : Method := fun now _ => do
  let forward ← draw coin
  relativeTime 365 forward now []

end JsonTemplate.Generator
