import JsonTemplate.Binary64.Basic

/-!
# Arithmetic of doubles

Sums, products, quotients, comparisons and the ways of reaching an integer. Each result is the
exact one, rounded once by `ofRatio`; the exceptional values follow IEEE 754.
-/

namespace JsonTemplate.Binary64

/-- ± `m` · 2 ^ `e` as a multiple of 2 ^ `base`, for a `base` not above `e`. -/
def aligned (negative : Bool) (m : Nat) (e base : Int) : Int :=
  let n : Nat := m <<< (e - base).toNat
  if negative then -(n : Int) else n

def neg : Binary64 → Binary64
  | .nan => .nan
  | .infinity s => .infinity (!s)
  | .finite s m e => .finite (!s) m e

/-- The sum of two zeros is negative only when both are. -/
def add : Binary64 → Binary64 → Binary64
  | .nan, _ => .nan
  | _, .nan => .nan
  | .infinity s, .infinity t => if s = t then .infinity s else .nan
  | .infinity s, .finite .. => .infinity s
  | .finite .., .infinity t => .infinity t
  | .finite s m e, .finite t n f =>
    let base := min e f
    let sum := aligned s m e base + aligned t n f base
    if sum = 0 then zero (s && t && m == 0) else ofScaled (sum < 0) sum.natAbs base

def sub (x y : Binary64) : Binary64 :=
  add x y.neg

def mul : Binary64 → Binary64 → Binary64
  | .nan, _ => .nan
  | _, .nan => .nan
  | .infinity s, .infinity t => .infinity (s ^^ t)
  | .infinity s, .finite t n _ => if n = 0 then .nan else .infinity (s ^^ t)
  | .finite s m _, .infinity t => if m = 0 then .nan else .infinity (s ^^ t)
  | .finite s m e, .finite t n f => ofScaled (s ^^ t) (m * n) (e + f)

def div : Binary64 → Binary64 → Binary64
  | .nan, _ => .nan
  | _, .nan => .nan
  | .infinity _, .infinity _ => .nan
  | .infinity s, .finite t _ _ => .infinity (s ^^ t)
  | .finite s _ _, .infinity t => zero (s ^^ t)
  | .finite s m e, .finite t n f =>
    if n = 0 then (if m = 0 then .nan else .infinity (s ^^ t))
    else
      let (num, den) := scaleDown m n (f - e)
      ofRatio (s ^^ t) num den

instance : Neg Binary64 := ⟨neg⟩
instance : Add Binary64 := ⟨add⟩
instance : Sub Binary64 := ⟨sub⟩
instance : Mul Binary64 := ⟨mul⟩
instance : Div Binary64 := ⟨div⟩

/-- The order of the values: both zeros are one value, and not-a-number stands outside. -/
def compare? : Binary64 → Binary64 → Option Ordering
  | .nan, _ => none
  | _, .nan => none
  | .infinity s, .infinity t => some (compare t.toNat s.toNat)
  | .infinity s, .finite .. => some (if s then .lt else .gt)
  | .finite .., .infinity t => some (if t then .gt else .lt)
  | .finite s m e, .finite t n f =>
    let base := min e f
    some (compare (aligned s m e base) (aligned t n f base))

def lt (x y : Binary64) : Bool :=
  x.compare? y == some .lt

def le (x y : Binary64) : Bool :=
  x.lt y || x.compare? y == some .eq

/-- Equality of values. -/
def same (x y : Binary64) : Bool :=
  x.compare? y == some .eq

/-- The value moved into the range from `lo` to `hi`. -/
def clamp (x lo hi : Binary64) : Binary64 :=
  let y := if x.lt lo then lo else x
  if hi.lt y then hi else y

/-- Replaces the magnitude of a double with a fractional part by the integer that `choose` picks
from the sign, the magnitude's numerator and its denominator. -/
def toIntegral (choose : Bool → Nat → Nat → Nat) : Binary64 → Binary64
  | .nan => .nan
  | .infinity s => .infinity s
  | .finite s m e =>
    if 0 ≤ e then .finite s m e else ofRatio s (choose s m (1 <<< (-e).toNat)) 1

/-- The greatest integer not above the value. -/
def floor : Binary64 → Binary64 :=
  toIntegral fun negative n d => if negative then (n + d - 1) / d else n / d

/-- The least integer not below the value. -/
def ceil : Binary64 → Binary64 :=
  toIntegral fun negative n d => if negative then n / d else (n + d - 1) / d

/-- The nearest integer, a half going away from zero. -/
def round : Binary64 → Binary64 :=
  toIntegral fun _ n d => (2 * n + d) / (2 * d)

/-- The integer part, moved into the range from `lo` to `hi`; not-a-number counts as zero. -/
def truncate (lo hi : Int) : Binary64 → Int
  | .nan => 0
  | .infinity s => if s then lo else hi
  | .finite s m e =>
    let n : Nat := if 0 ≤ e then m <<< e.toNat else m >>> (-e).toNat
    max lo (min hi (if s then -(n : Int) else n))

/-- The next double towards zero. -/
def towardsZero : Binary64 → Binary64
  | .nan => .nan
  | .infinity s => .finite s fullMantissa greatestExponent
  | .finite s m e =>
    if m = hiddenBit && leastExponent < e then .finite s fullMantissa (e - 1)
    else .finite s (m - 1) e

end JsonTemplate.Binary64
