/-!
# Double precision numbers

The 64-bit binary floating-point numbers of IEEE 754, as data: a finite one is a sign, a mantissa
below 2^53 and a power of two. Every operation goes through `ofRatio`, the nearest double to an
exact fraction, a half going to the even mantissa.
-/

namespace JsonTemplate

/-- A double: not a number, an infinity, or ± `mantissa` · 2 ^ `exponent`. -/
inductive Binary64
  | nan
  | infinity (negative : Bool)
  | finite (negative : Bool) (mantissa : Nat) (exponent : Int)
  deriving DecidableEq, Repr, Inhabited

namespace Binary64

/-- The least mantissa of 53 bits. -/
def hiddenBit : Nat := 0x10000000000000

/-- The greatest mantissa. -/
def fullMantissa : Nat := 0x1FFFFFFFFFFFFF

/-- The exponent of the least positive double. -/
def leastExponent : Int := -1074

/-- The largest exponent of a finite double. -/
def greatestExponent : Int := 971

/-- A fraction scaled by 2 ^ `-e`, as numerator and denominator. -/
def scaleDown (num den : Nat) (e : Int) : Nat × Nat :=
  if 0 ≤ e then (num, den <<< e.toNat) else (num <<< (-e).toNat, den)

/-- The nearest integer to a fraction, a half going to the even neighbour. -/
def roundHalfEven (num den : Nat) : Nat :=
  let q := num / den
  let twice := 2 * (num % den)
  if twice < den then q else if den < twice then q + 1 else q + q % 2

/-- The exponent at which a fraction has a mantissa of 53 bits, or the least exponent for the
fractions too small for that. -/
def exponentOf (num den : Nat) : Int :=
  let guess : Int := (num.log2 : Int) - den.log2 - 52
  let (n, d) := scaleDown num den guess
  max leastExponent (if n < d <<< 52 then guess - 1 else guess)

/-- A rounded mantissa may have become 2^53, and an exponent too large for a finite double. -/
def pack (negative : Bool) (mantissa : Nat) (exponent : Int) : Binary64 :=
  let (m, e) :=
    if fullMantissa < mantissa then (hiddenBit, exponent + 1) else (mantissa, exponent)
  if greatestExponent < e then .infinity negative else .finite negative m e

def zero (negative : Bool) : Binary64 :=
  .finite negative 0 leastExponent

/-- The double nearest to ± `num` / `den`. -/
def ofRatio (negative : Bool) (num den : Nat) : Binary64 :=
  if num = 0 then zero negative
  else
    let e := exponentOf num den
    let (n, d) := scaleDown num den e
    pack negative (roundHalfEven n d) e

/-- The double nearest to ± `n` · 2 ^ `e`. -/
def ofScaled (negative : Bool) (n : Nat) (e : Int) : Binary64 :=
  if 0 ≤ e then ofRatio negative (n <<< e.toNat) 1 else ofRatio negative n (1 <<< (-e).toNat)

def ofNat (n : Nat) : Binary64 :=
  ofRatio false n 1

def ofInt (n : Int) : Binary64 :=
  ofRatio (n < 0) n.natAbs 1

/-- The double nearest to ± `n` · 10 ^ `e`. -/
def ofDecimal (negative : Bool) (n : Nat) (e : Int) : Binary64 :=
  if 0 ≤ e then ofRatio negative (n * Nat.pow 10 e.toNat) 1
  else ofRatio negative n (Nat.pow 10 (-e).toNat)

def isFinite : Binary64 → Bool
  | .finite .. => true
  | _ => false

end Binary64

end JsonTemplate
