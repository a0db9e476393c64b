import JsonTemplate.Decimal.Shortest
import JsonTemplate.Text.Digit

/-!
# Layouts of decimals

The ways of writing digits and a power of ten: with the point in place, as digits times a power,
and with a fixed number of places.
-/

namespace JsonTemplate.Decimal

open Text

/-- The point in place, without an exponent; an integer gets no point. -/
def positional (d : Decimal) : List Char :=
  let ds := natText d.digits
  if 0 ≤ d.exponent then ds ++ List.replicate d.exponent.toNat '0'
  else
    let places := (-d.exponent).toNat
    if places < ds.length then
      ds.take (ds.length - places) ++ '.' :: ds.drop (ds.length - places)
    else '0' :: '.' :: List.replicate (places - ds.length) '0' ++ ds

/-- One digit before the point, and the exponent with its sign. -/
def scientific (d : Decimal) : List Char :=
  match natText d.digits with
  | [] => []
  | lead :: rest =>
    let e := d.exponent + rest.length
    lead :: (if rest = [] then [] else '.' :: rest)
      ++ 'e' :: (if e < 0 then '-' else '+') :: natText e.natAbs

/-- The number of digits before the point; negative or nought for a decimal below one tenth. -/
def pointPlace (d : Decimal) : Int :=
  (natText d.digits).length + d.exponent

def signed (negative : Bool) (t : List Char) : List Char :=
  if negative then '-' :: t else t

/-- The plain text of a double in messages: shortest digits, never an exponent, and no point in an
integer. -/
def plainText : Binary64 → List Char
  | .nan => ['N', 'a', 'N']
  | .infinity s => signed s ['i', 'n', 'f']
  | .finite s m e => signed s (if m = 0 then ['0'] else (shortest .upward m e).positional)

/-- The text of a double with the given number of places after the point, at least one, a half of
the last place going to the even neighbour. -/
def fixedText (places : Nat) : Binary64 → List Char
  | .nan => ['N', 'a', 'N']
  | .infinity s => signed s ['i', 'n', 'f']
  | .finite s m e =>
    let (num, den) := Binary64.scaleDown (m * Nat.pow 10 places) 1 (-e)
    let ds := natText (Binary64.roundHalfEven num den)
    let padded := List.replicate (places + 1 - ds.length) '0' ++ ds
    signed s (padded.take (padded.length - places) ++ '.' :: padded.drop (padded.length - places))

end JsonTemplate.Decimal
