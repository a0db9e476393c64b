import JsonTemplate.Binary64.Arithmetic
import JsonTemplate.KeyStream
import JsonTemplate.Width

/-!
# Samples

Numbers of a range, coins and picks, drawn from a key stream. An integer of a range is the high
part of a product; draws whose low part would favour some results are rejected
(`below_lt` says that a result is always below its bound).
-/

namespace JsonTemplate.KeyStream

open Width

/-- The largest low part at which a draw counts: one less than `bound` shifted to fill 64 bits. -/
def acceptedLow (bound : Nat) : Nat :=
  bound <<< (63 - bound.log2) - 1

/-- Draws until a draw counts. At least every second word does, so 1024 attempts never run out;
the last one counts in any case. -/
def belowAttempts (bound : Nat) : (attempts : Nat) → StateM KeyStream Nat
  | 0 => do
    let v ← nextDoubleWord
    return v.toNat * bound / wordCount
  | n + 1 => do
    let v ← nextDoubleWord
    if v.toNat * bound % wordCount ≤ acceptedLow bound then return v.toNat * bound / wordCount
    else belowAttempts bound n

/-- A number below a positive bound of at most 64 bits. -/
def below (bound : Nat) : StateM KeyStream Nat :=
  belowAttempts bound 1024

theorem word_mul_div_lt {bound : Nat} (h : 0 < bound) (v : UInt64) :
    v.toNat * bound / wordCount < bound :=
  Nat.div_lt_of_lt_mul (Nat.mul_lt_mul_of_pos_right v.toNat_lt h)

theorem belowAttempts_lt {bound : Nat} (h : 0 < bound) (attempts : Nat) (s : KeyStream) :
    ((belowAttempts bound attempts).run s).1 < bound := by
  induction attempts generalizing s with
  | zero => exact word_mul_div_lt h _
  | succ n ih =>
    simp only [belowAttempts, StateT.run_bind]
    generalize nextDoubleWord.run s = r
    obtain ⟨v, s'⟩ := r
    simp only [bind]
    split
    · exact word_mul_div_lt h v
    · exact ih s'

theorem below_lt {bound : Nat} (h : 0 < bound) (s : KeyStream) : ((below bound).run s).1 < bound :=
  belowAttempts_lt h 1024 s

/-- An integer from `low` to `high`. A range of 2^64 integers takes a word as it is, read with a
sign. -/
def intBetween (low high : Int) : StateM KeyStream Int := do
  let size := (high - low + 1).toNat
  if size = wordCount then
    let v ← nextDoubleWord
    return low + ((v.toNat + wordCount / 2) % wordCount : Nat)
  else
    let n ← below size
    return low + n

/-- One of the members of a list, each equally likely. -/
def pick {α : Type} (members : List α) (default : α) : StateM KeyStream α := do
  let i ← below members.length
  return members.getD i default

def coin : StateM KeyStream Bool := do
  let v ← nextDoubleWord
  return v.toNat < wordCount / 2

/-- The largest fraction that is drawn, 1 - 2^-52. -/
def greatestFraction : Binary64 :=
  .ofScaled false (Binary64.hiddenBit - 1) (-52)

/-- The largest scale at which the greatest fraction stays within `max`, from the given one
downwards. Rounding is off by a few units in the last place at most. -/
def fitScale (min max : Binary64) : (steps : Nat) → Binary64 → Binary64
  | 0, scale => scale
  | n + 1, scale =>
    if max.lt (scale * greatestFraction + min) then fitScale min max n scale.towardsZero else scale

/-- The factor that stretches the fractions over a range; `none` if the range is too wide for
one. -/
def scaleOf? (min max : Binary64) : Option Binary64 :=
  let scale := (max - min) / greatestFraction
  if scale.isFinite then some (fitScale min max 1024 scale) else none

/-- A fraction of 52 bits, at least nought and below one. -/
def fraction : StateM KeyStream Binary64 := do
  let v ← nextDoubleWord
  return .ofScaled false (v.toNat >>> 12) (-52)

/-- A byte, from the low end of a word. -/
def nextByte : StateM KeyStream Nat := do
  let w ← nextWord
  return w.toNat % 256

def bytes : Nat → StateM KeyStream (List Nat)
  | 0 => return []
  | n + 1 => do
    let b ← nextByte
    return b :: (← bytes n)

end JsonTemplate.KeyStream
