import JsonTemplate.Decimal.Numeral
import JsonTemplate.Json.Basic
import JsonTemplate.Json.SyntaxError
import JsonTemplate.Width

/-!
# Reading JSON numbers

A number is read digit by digit into a significand of 64 bits and a decimal scale. Integers that
fit 64 bits stay integers; any other number is the significand as a double, multiplied or divided
by one power of ten.
-/

namespace JsonTemplate.Json

open Text

/-- Which part of a number the last character belonged to. -/
inductive NumberPart
  /-- The minus sign. -/
  | sign
  /-- A leading nought, which no digit may follow. -/
  | nought
  | whole
  /-- Digits before the point that no longer fit the significand. -/
  | surplus
  | point
  | fraction
  /-- Digits after the point that no longer fit the significand. -/
  | dropped
  | exponentMark
  | exponentSign (negative : Bool)
  | exponent (negative : Bool) (value : Nat)
  /-- The rest of an exponent too large to matter. -/
  | vanished

/-- A number read so far: ± `significand` · 10 ^ `scale`. -/
structure NumberDraft where
  negative : Bool
  significand : Nat
  scale : Int
  part : NumberPart

/-- Divides by 10^308 until the remaining power of ten is within reach. -/
def scaleDownBy308 : (fuel : Nat) → Binary64 → Int → Binary64
  | 0, x, _ => x
  | n + 1, x, e =>
    if -308 ≤ e then x / .ofDecimal false 1 (-e)
    else if x.same (.zero false) then x
    else scaleDownBy308 n (x / .ofDecimal false 1 308) (e + 308)

/-- The double for a significand and a scale: one multiplication or division by a power of ten up
to 10^308, or `none` for a number beyond the finite doubles. A double is nought after three
divisions by 10^308. -/
def scaled? (significand : Nat) (scale : Int) : Option Binary64 :=
  let x := Binary64.ofNat significand
  if 0 ≤ scale then
    if scale ≤ 308 then
      let y := x * .ofDecimal false 1 scale
      if y.isFinite then some y else none
    else if x.same (.zero false) then some x
    else none
  else some (scaleDownBy308 4 x scale)

namespace NumberDraft

def start (c : Char) : NumberDraft :=
  if c = '-' then ⟨true, 0, 0, .sign⟩
  else ⟨false, digitValue c, 0, if c = '0' then .nought else .whole⟩

/-- The significand with one more digit, if it still fits 64 bits. -/
def push? (d : NumberDraft) (c : Char) : Option Nat :=
  let n := 10 * d.significand + digitValue c
  if n ≤ Width.greatestNat64 then some n else none

/-- What becomes of a number at a character. -/
inductive Step
  | more (d : NumberDraft)
  /-- The number ended before the character. -/
  | finished
  | failed (cause : SyntaxCause)

/-- A digit in the exponent; an exponent beyond 32 bits makes the number nought or infinite. -/
def exponentDigit (d : NumberDraft) (negative : Bool) (value : Nat) (c : Char) : Step :=
  let e := 10 * value + digitValue c
  if (e : Int) ≤ Width.greatestInt32 then .more { d with part := .exponent negative e }
  else if d.significand ≠ 0 ∧ !negative then .failed .numberOutOfRange
  else .more { d with significand := 0, part := .vanished }

def mark (d : NumberDraft) : NumberDraft :=
  { d with part := .exponentMark }

def isMark (c : Char) : Bool :=
  c == 'e' || c == 'E'

/-- A character that is not a digit, after digits. -/
def leave (d : NumberDraft) (pointAllowed : Bool) (c : Char) : Step :=
  if c = '.' ∧ pointAllowed then .more { d with part := .point }
  else if isMark c then .more d.mark
  else .finished

/-- A digit after the point. -/
def fractionDigit (d : NumberDraft) (c : Char) : NumberDraft :=
  match d.push? c with
  | some n => { d with significand := n, scale := d.scale - 1, part := .fraction }
  | none => { d with part := .dropped }

def step (d : NumberDraft) (c : Char) : Step :=
  match d.part with
  | .sign =>
    if c.isDigit then .more { start c with negative := true } else .failed .invalidNumber
  | .nought => if c.isDigit then .failed .invalidNumber else d.leave true c
  | .whole =>
    if c.isDigit then
      match d.push? c with
      | some n => .more { d with significand := n }
      | none => .more { d with scale := 1, part := .surplus }
    else d.leave true c
  | .surplus => if c.isDigit then .more { d with scale := d.scale + 1 } else d.leave true c
  | .point => if c.isDigit then .more (d.fractionDigit c) else .failed .invalidNumber
  | .fraction => if c.isDigit then .more (d.fractionDigit c) else d.leave false c
  | .dropped => if c.isDigit then .more d else d.leave false c
  | .exponentMark =>
    if c = '+' then .more { d with part := .exponentSign false }
    else if c = '-' then .more { d with part := .exponentSign true }
    else if c.isDigit then .more { d with part := .exponent false (digitValue c) }
    else .failed .invalidNumber
  | .exponentSign negative =>
    if c.isDigit then .more { d with part := .exponent negative (digitValue c) }
    else .failed .invalidNumber
  | .exponent negative value =>
    if c.isDigit then d.exponentDigit negative value c else .finished
  | .vanished => if c.isDigit then .more d else .finished

/-- The number as a double with its sign. -/
def toFloat (d : NumberDraft) (scale : Int) : Except SyntaxCause JsonNumber :=
  match scaled? d.significand scale with
  | some x => .ok (.float (if d.negative then -x else x))
  | none => .error .numberOutOfRange

/-- A whole number: minus nought and the numbers below the 64-bit integers are floats. -/
def toInteger (d : NumberDraft) : JsonNumber :=
  if !d.negative then .integer d.significand
  else if d.significand = 0 ∨ -(d.significand : Int) < Width.leastInt64 then
    .float (-.ofNat d.significand)
  else .integer (-d.significand)

/-- The number at its end. -/
def finish (d : NumberDraft) : Except SyntaxCause JsonNumber :=
  match d.part with
  | .sign | .point | .exponentMark | .exponentSign _ => .error .endInValue
  | .nought | .whole => .ok d.toInteger
  | .surplus | .fraction | .dropped => d.toFloat d.scale
  | .exponent negative value =>
    let e : Int := d.scale + applySign negative value
    d.toFloat (max Width.leastInt32 (min Width.greatestInt32 e))
  | .vanished => d.toFloat 0

end NumberDraft

end JsonTemplate.Json
