import JsonTemplate.Binary64.Basic

/-!
# Shortest decimals

Of all decimals that round to a given double, `shortest` picks one with the fewest digits, and of
those the nearest to the double. A double is the centre of an interval of reals that round to it;
for 1, 2, … digits the two neighbours of the double on that decimal grid are tested, and the first
grid with a hit wins, since an interval that holds a point of a grid holds one of the two
neighbours.
-/

namespace JsonTemplate

/-- The positive decimal `digits` · 10 ^ `exponent`. -/
structure Decimal where
  digits : Nat
  exponent : Int
  deriving DecidableEq, Repr

namespace Decimal

/-- Which of two decimals at the same distance is taken. -/
inductive Tie
  | toEven
  | upward

/-- The exponent of the leading digit of the fraction `num` / `den`. -/
def leadingExponent (num den : Nat) : Int :=
  if den ≤ num then ((Nat.toDigits 10 (num / den)).length : Int) - 1
  else
    let j := (Nat.toDigits 10 (den / num)).length - 1
    if den ≤ num * Nat.pow 10 j then -(j : Int) else -(j : Int) - 1

/-- The reals that round to `centre` · 2 ^ `exponent`, as multiples of 2 ^ `exponent`. -/
structure Interval where
  low : Nat
  centre : Nat
  high : Nat
  exponent : Int
  closed : Bool

/-- Below a power of two the doubles lie twice as close. -/
def Interval.around (mantissa : Nat) (exponent : Int) : Interval where
  low := if mantissa = Binary64.hiddenBit ∧ Binary64.leastExponent < exponent then 4 * mantissa - 1
    else 4 * mantissa - 2
  centre := 4 * mantissa
  high := 4 * mantissa + 2
  exponent := exponent - 2
  closed := mantissa % 2 == 0

/-- The multiple of 10 ^ `k` within the interval that is nearest to its centre, if there is one. -/
def Interval.onGrid? (i : Interval) (tie : Tie) (k : Int) : Option Nat :=
  -- both sides of a comparison are multiplied by the two denominators
  let unit := Nat.pow 10 k.toNat <<< (-i.exponent).toNat
  let scale := Nat.pow 10 (-k).toNat <<< i.exponent.toNat
  let low := i.low * scale
  let high := i.high * scale
  let below := i.centre * scale / unit
  let lower := below * unit
  let upper := lower + unit
  let fromBelow := low < lower || (i.closed && low == lower)
  let fromAbove := upper < high || (i.closed && upper == high)
  let distance := 2 * (i.centre * scale - lower)
  if fromBelow && fromAbove then
    if distance < unit then some below
    else if unit < distance then some (below + 1)
    else match tie with
      | .toEven => some (below + below % 2)
      | .upward => some (below + 1)
  else if fromBelow then some below
  else if fromAbove then some (below + 1)
  else none

/-- The same decimal with no zero at the end of its digits. -/
def normalize : (fuel : Nat) → Decimal → Decimal
  | 0, d => d
  | n + 1, d =>
    if d.digits ≠ 0 ∧ d.digits % 10 = 0 then normalize n ⟨d.digits / 10, d.exponent + 1⟩ else d

/-- A decimal with the fewest digits among those that round to `mantissa` · 2 ^ `exponent`, for a
positive mantissa. Seventeen digits always suffice. -/
def shortest (tie : Tie) (mantissa : Nat) (exponent : Int) : Decimal :=
  let i := Interval.around mantissa exponent
  let (num, den) := Binary64.scaleDown mantissa 1 (-exponent)
  let leading := leadingExponent num den
  let found := (List.range 17).findSome? fun n : Nat =>
    let k := leading - (n : Int)
    (i.onGrid? tie k).map fun digits => Decimal.mk digits k
  normalize 17 (found.getD ⟨num, 0⟩)

end Decimal

end JsonTemplate
