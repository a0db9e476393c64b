import JsonTemplate.Generator.Basic

/-!
# Generated numbers

Integers, decimals, amounts of money and coordinates within bounds. Bounds that are not whole are
moved inwards, and a range without a member is refused.
-/

namespace JsonTemplate.Generator

open KeyStream Text

/-- The largest integer up to which every integer is a double. -/
def greatestSafeInteger : Binary64 :=
  .ofNat Binary64.fullMantissa

def plain (x : Binary64) : String :=
  String.ofList (Decimal.plainText x)

/-- The bounds of an integer: a single number is the upper one. -/
def intBounds (args : List Json) : Gen (Binary64 × Binary64) :=
  match args with
  | [] => return (.ofInt 0, greatestSafeInteger)
  | .object fields :: _ =>
    return (numberOption fields "min" (.ofInt 0), numberOption fields "max" greatestSafeInteger)
  | .number n :: _ => return (.ofInt 0, n.toBinary64)
  | other :: _ => invalid ("expected options, got " ++ other.compact)

/-- A double as a 64-bit integer, moved into the range if it is outside. -/
def toInt64 (x : Binary64) : Int :=
  x.truncate Width.leastInt64 Width.greatestInt64

def int : Method := fun _ args => do
  let (min, max) ← intBounds args
  if max.floor.lt min.ceil then
    invalid ("no integer between min " ++ plain min ++ " and max " ++ plain max)
  else
    return .ofInt (← draw (intBetween (toInt64 min.ceil) (toInt64 max.floor)))

/-- The bounds of a decimal, whose difference must be finite. -/
def floatBounds (args : List Json) (defaultMin defaultMax : Binary64) :
    Gen (Binary64 × Binary64) := do
  let (min, max) := match ← options args with
    | some fields => (numberOption fields "min" defaultMin, numberOption fields "max" defaultMax)
    | none => (defaultMin, defaultMax)
  if !(min.isFinite && max.isFinite && (max - min).isFinite) then
    invalid ("range " ++ plain min ++ ".." ++ plain max ++ " is too wide")
  else if max.lt min then invalid ("max " ++ plain max ++ " is less than min " ++ plain min)
  else return (min, max)

/-- A double of a range. A range of one value takes no draw, and a range that is too wide to be
scaled stops all. -/
def floatBetween (min max : Binary64) : Gen Binary64 :=
  if min.same max then return min
  else
    match scaleOf? min max with
    | none => halt .endlessRange
    | some scale => do
      let r ← draw fraction
      return r * scale + min

/-- A double rounded to decimal places, a half away from zero. -/
def roundToPlaces (places : Nat) (x : Binary64) : Binary64 :=
  let factor := Binary64.ofNat (Nat.pow 10 places)
  (x * factor).round / factor

/-- A decimal with at most the given number of places, except at the bounds. -/
def decimalBetween (places : Nat) (min max : Binary64) : Gen Json := do
  let x ← floatBetween min max
  let y := (roundToPlaces places x).clamp min max
  return if y.isFinite then .number (.float y) else .null

def float : Method := fun _ args => do
  let (min, max) ← floatBounds args (.ofInt 0) (.ofInt 1)
  decimalBetween 2 min max

/-- The slack that keeps a bound of whole cents from being moved by rounding. -/
def centSlack : Binary64 :=
  .ofDecimal false 1 (-9)

/-- An amount with two places, as a text. -/
def amount (defaultMin : Int) : Method := fun _ args => do
  let (min, max) ← floatBounds args (.ofInt defaultMin) (.ofInt 1000)
  let hundred := Binary64.ofInt 100
  let low := (min * hundred - centSlack).ceil / hundred
  let high := (max * hundred + centSlack).floor / hundred
  if high.lt low then
    invalid ("no two-decimal amount between min " ++ plain min ++ " and max " ++ plain max)
  else
    let x ← floatBetween low high
    return .string (String.ofList (Decimal.fixedText 2 ((roundToPlaces 2 x).clamp low high)))

/-- An angle of at most `limit` degrees, with four places. -/
def coordinate (limit : Int) : Method := fun _ args => do
  let (min, max) ← floatBounds args (.ofInt (-limit)) (.ofInt limit)
  decimalBetween 4 min max

end JsonTemplate.Generator
