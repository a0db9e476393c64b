import JsonTemplate.Binary64.Basic
import JsonTemplate.Text.Digit

/-!
# Numerals

Reading decimal texts as numbers: integers with an optional sign, and decimals with an optional
point and exponent, which are rounded once to a double.
-/

namespace JsonTemplate

open Text

/-- Takes a sign off the head of a text; without one the number is not negative. -/
def splitSign : List Char → Bool × List Char
  | '-' :: t => (true, t)
  | '+' :: t => (false, t)
  | t => (false, t)

def applySign (negative : Bool) (n : Nat) : Int :=
  if negative then -(n : Int) else n

/-- Reads an optional sign and ASCII digits, for a number from `lo` to `hi`. -/
def readInt? (lo hi : Int) (t : List Char) : Option Int :=
  let (negative, ds) := splitSign t
  (readNat? ds).bind fun n =>
    let i := applySign negative n
    if lo ≤ i ∧ i ≤ hi then some i else none

/-- A decimal as it is written: ± `digits` · 10 ^ `exponent`. -/
structure Numeral where
  negative : Bool
  digits : Nat
  exponent : Int
  deriving DecidableEq, Repr

namespace Numeral

/-- The exponent part of a numeral, which may be missing. -/
def readExponent? : List Char → Option Int
  | [] => some 0
  | c :: t =>
    if c = 'e' ∨ c = 'E' then
      let (negative, ds) := splitSign t
      (readNat? ds).map (applySign negative)
    else none

/-- Splits off the digits after a point at the head of a text. -/
def splitFraction : List Char → List Char × List Char
  | '.' :: t => (t.takeWhile Char.isDigit, t.dropWhile Char.isDigit)
  | t => ([], t)

/-- Reads an optional sign, digits with an optional point among or beside them, and an optional
exponent. -/
def read? (t : List Char) : Option Numeral :=
  let (negative, t) := splitSign t
  let whole := t.takeWhile Char.isDigit
  let (fraction, rest) := splitFraction (t.dropWhile Char.isDigit)
  if whole = [] ∧ fraction = [] then none
  else (readExponent? rest).map fun e =>
    ⟨negative, natOfDigits (whole ++ fraction), e - fraction.length⟩

/-- The double nearest to the numeral. Outside the powers of ten from -330 to 310 the digits do
not matter. -/
def toBinary64 (n : Numeral) : Binary64 :=
  let size := (natText n.digits).length + n.exponent
  if n.digits = 0 ∨ size < -330 then .zero n.negative
  else if 310 < size then .infinity n.negative
  else .ofDecimal n.negative n.digits n.exponent

end Numeral

end JsonTemplate
