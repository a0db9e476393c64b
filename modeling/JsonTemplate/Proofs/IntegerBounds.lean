import JsonTemplate.Generator.Catalogue
import JsonTemplate.Proofs.DoubleValues
import JsonTemplate.Proofs.Draws
import JsonTemplate.Proofs.Handling

/-!
# Bounds of integers

The bounds of a generated integer are taken as doubles before an integer is drawn between them.
Bounds of at most 53 bits stay as they are; a longer one is rounded, so that integers outside the
bounds may be drawn and crossed bounds may meet. The theorem `resolve_int_iff` says for which
bounds that happens.
-/

namespace JsonTemplate.Generator

open KeyStream Resolving Width

/-- A 64-bit integer. -/
structure IsInt64 (n : Int) : Prop where
  least : leastInt64 ≤ n
  greatest : n ≤ greatestInt64

/-- The integer that a bound comes to: the nearest double, in the range of 64 bits. -/
def heldBound (n : Int) : Int :=
  min greatestInt64 (Binary64.nearest n)

theorem heldBound_eq_self {n : Int} (h : n.natAbs ≤ 2 ^ 53) : heldBound n = n := by
  rw [heldBound, Binary64.nearest_eq_self h, min_eq_right]
  unfold greatestInt64
  omega

theorem heldBound_mono {a b : Int} (h : a ≤ b) : heldBound a ≤ heldBound b :=
  min_le_min_left _ (Binary64.nearest_mono h)

section Bounds

variable {n : Int} (h : IsInt64 n)
include h

theorem IsInt64.log2_lt : n.natAbs.log2 < 1023 := by
  have hleast := h.least
  have hgreatest := h.greatest
  unfold leastInt64 at hleast
  unfold greatestInt64 at hgreatest
  exact Binary64.log2_lt_of_le (by omega)

theorem IsInt64.least_le_nearest : leastInt64 ≤ Binary64.nearest n := by
  have hleast : Binary64.nearest leastInt64 = leastInt64 := by decide
  rw [← hleast]
  exact Binary64.nearest_mono h.least

theorem IsInt64.nearest_le : Binary64.nearest n ≤ 2 ^ 63 := by
  have hgreatest : Binary64.nearest greatestInt64 = 2 ^ 63 := by decide
  rw [← hgreatest]
  exact Binary64.nearest_mono h.greatest

theorem IsInt64.least_le_heldBound : leastInt64 ≤ heldBound n :=
  le_min (by decide) h.least_le_nearest

theorem toInt64_eq_heldBound {x : Binary64} (hx : x.value? = some (Binary64.nearest n : ℚ)) :
    toInt64 x = heldBound n := by
  rw [toInt64, Binary64.truncate_eq hx, Binary64.integerPart_intCast]
  exact max_eq_right h.least_le_heldBound

end Bounds

/-- Below 2^63 the doubles are further apart than the integers, so that none is the greatest integer
of 64 bits. -/
theorem nearest_gap {n : Int} (h : IsInt64 n) :
    Binary64.nearest n ≤ 2 ^ 63 - 1024 ∨ Binary64.nearest n = 2 ^ 63 := by
  rcases le_or_gt n (2 ^ 63 - 513) with hle | hgt
  · have hlast : Binary64.nearest (2 ^ 63 - 513) = 2 ^ 63 - 1024 := by decide
    exact .inl (hlast ▸ Binary64.nearest_mono hle)
  · have hfirst : Binary64.nearest (2 ^ 63 - 512) = 2 ^ 63 := by decide
    exact .inr (le_antisymm h.nearest_le (hfirst ▸ Binary64.nearest_mono (by omega)))

theorem heldBound_lt_iff {a b : Int} (ha : IsInt64 a) (hb : IsInt64 b) :
    heldBound a < heldBound b ↔ Binary64.nearest a < Binary64.nearest b := by
  have hgapA := nearest_gap ha
  have hgapB := nearest_gap hb
  unfold heldBound greatestInt64
  omega

/-! ## The generator -/

/-- What is said about bounds without an integer between them. -/
def noInteger (min max : Int) : SourceError :=
  .invalidArgument ("no integer between min " ++ plain (.ofInt min) ++ " and max "
    ++ plain (.ofInt max))

theorem run_int {min max : Int} (hmin : IsInt64 min) (hmax : IsInt64 max)
    (now : Calendar.Instant) (s : KeyStream) :
    (int now [.object [("min", .ofInt min), ("max", .ofInt max)]]).run.run s
      = if heldBound max < heldBound min then .ok (.error (noInteger min max), s)
        else .ok (.ok (.ofInt ((intBetween (heldBound min) (heldBound max)).run s).1),
          ((intBetween (heldBound min) (heldBound max)).run s).2) := by
  have hlow := Binary64.value?_ceil_ofInt hmin.log2_lt
  have hhigh := Binary64.value?_floor_ofInt hmax.log2_lt
  have hcrossed : (Binary64.ofInt max).floor.lt (Binary64.ofInt min).ceil = true
      ↔ heldBound max < heldBound min := by
    rw [Binary64.lt_iff hhigh hlow, Int.cast_lt, heldBound_lt_iff hmax hmin]
  have hrun : (int now [.object [("min", .ofInt min), ("max", .ofInt max)]]).run.run s
      = (if (Binary64.ofInt max).floor.lt (Binary64.ofInt min).ceil then
          (invalid ("no integer between min " ++ plain (.ofInt min) ++ " and max "
            ++ plain (.ofInt max)) : Gen Json)
        else do return .ofInt (← draw (intBetween (toInt64 (Binary64.ofInt min).ceil)
          (toInt64 (Binary64.ofInt max).floor)))).run.run s :=
    rfl
  rw [hrun, toInt64_eq_heldBound hmin hlow, toInt64_eq_heldBound hmax hhigh]
  by_cases h : heldBound max < heldBound min
  · rw [if_pos (hcrossed.2 h), if_pos h]
    rfl
  · rw [if_neg (mt hcrossed.1 h), if_neg h]
    rfl

/-! ## The directive -/

def intDirective (min max : Int) : Directive :=
  ⟨"number", some "int", [.ofInt min, .ofInt max]⟩

/-- How a directive with bounds that have no integer between them is reported. -/
def refusal (min max : Int) : Diagnostic :=
  ⟨.sourceFailure, "number.int", "Error calling number.int: " ++ (noInteger min max).message⟩

section Resolve

variable {min max : Int} (hmin : IsInt64 min) (hmax : IsInt64 max) (now : Calendar.Instant)
include hmin hmax

theorem resolve_int_of_le (h : heldBound min ≤ heldBound max) (s : KeyStream)
    (ds : List Diagnostic) :
    (resolve (source now) (intDirective min max)).run ⟨s, ds⟩
      = .ok (.ofInt ((intBetween (heldBound min) (heldBound max)).run s).1,
        ⟨((intBetween (heldBound min) (heldBound max)).run s).2, ds⟩) := by
  have hgives : (Call.adapted "number" "int" [.ofInt min, .ofInt max]).Gives (source now) s
      (.ok (.ofInt ((intBetween (heldBound min) (heldBound max)).run s).1))
      ((intBetween (heldBound min) (heldBound max)).run s).2 :=
    (run_int hmin hmax now s).trans (if_neg h.not_gt)
  exact run_resolve_of_value (.asked rfl (.answered hgives)) ds

theorem resolve_int_of_lt (h : heldBound max < heldBound min) (s : KeyStream)
    (ds : List Diagnostic) :
    (resolve (source now) (intDirective min max)).run ⟨s, ds⟩
      = .ok (.string "number.int", ⟨s, ds ++ [refusal min max]⟩) := by
  have hgives : (Call.adapted "number" "int" [.ofInt min, .ofInt max]).Gives (source now) s
      (.error (noInteger min max)) s :=
    (run_int hmin hmax now s).trans (if_pos h)
  have honce : ¬ PassedTwice "int" [.ofInt min, .ofInt max] := fun htwice => by
    cases htwice.1
  exact run_resolve_of_handled (.asked rfl (.failed hgives honce)) ds

end Resolve

theorem heldRange_size {min max : Int} (hmin : IsInt64 min) :
    (heldBound max - heldBound min + 1).toNat ≤ wordCount := by
  have hleast := hmin.least_le_heldBound
  have hgreatest : heldBound max ≤ greatestInt64 := min_le_left _ _
  have hcount : wordCount = 2 ^ 64 := by decide
  unfold leastInt64 at hleast
  unfold greatestInt64 at hgreatest
  omega

section

variable (now : Calendar.Instant) {min max : Int} (hmin : IsInt64 min) (hmax : IsInt64 max)
  (hheld : heldBound min ≤ heldBound max)
include hmin hmax hheld

theorem exists_resolve_int (s : KeyStream) (ds : List Diagnostic) :
    ∃ n s', (resolve (source now) (intDirective min max)).run ⟨s, ds⟩ = .ok (.ofInt n, ⟨s', ds⟩)
      ∧ heldBound min ≤ n ∧ n ≤ heldBound max :=
  ⟨_, _, resolve_int_of_le hmin hmax now hheld s ds,
    intBetween_mem hheld (heldRange_size hmin) s⟩

/-- Every integer between the held bounds is drawn with some words to come. -/
theorem exists_resolve_int_eq (s : KeyStream) (ds : List Diagnostic) (n : Int)
    (hlow : heldBound min ≤ n) (hhigh : n ≤ heldBound max) :
    ∃ words s', (resolve (source now) (intDirective min max)).run ⟨{ s with pending := words }, ds⟩
      = .ok (.ofInt n, ⟨s', ds⟩) := by
  obtain ⟨words, hwords⟩ := exists_intBetween_eq hlow hhigh (heldRange_size hmin) s
  have hrun := resolve_int_of_le hmin hmax now hheld { s with pending := words } ds
  rw [hwords] at hrun
  exact ⟨words, _, hrun⟩

end

/-- Bounds of 64 bits come to the nearest doubles, held to 64 bits. If they are crossed then, the
directive is given its own name and reported; if not, it is given any integer between them and no
other one. So an integer between the bounds comes of it exactly if rounding moves them inwards, and
crossed bounds are reported exactly if they stay crossed. Bounds of at most 53 bits stay as they
are. -/
theorem resolve_int_iff (now : Calendar.Instant) {min max : Int} (hmin : IsInt64 min)
    (hmax : IsInt64 max) :
    (min ≤ max → ((∀ s ds, ∃ n s', (resolve (source now) (intDirective min max)).run ⟨s, ds⟩
          = .ok (.ofInt n, ⟨s', ds⟩) ∧ min ≤ n ∧ n ≤ max)
        ↔ min ≤ heldBound min ∧ heldBound max ≤ max))
    ∧ (max < min → ((∀ s ds, (resolve (source now) (intDirective min max)).run ⟨s, ds⟩
          = .ok (.string "number.int", ⟨s, ds ++ [refusal min max]⟩))
        ↔ heldBound max < heldBound min))
    ∧ (heldBound min ≤ heldBound max →
        (∀ s ds, ∃ n s', (resolve (source now) (intDirective min max)).run ⟨s, ds⟩
          = .ok (.ofInt n, ⟨s', ds⟩) ∧ heldBound min ≤ n ∧ n ≤ heldBound max)
        ∧ ∀ (s : KeyStream) (ds : List Diagnostic) (n : Int), heldBound min ≤ n →
          n ≤ heldBound max → ∃ words s',
            (resolve (source now) (intDirective min max)).run ⟨{ s with pending := words }, ds⟩
              = .ok (.ofInt n, ⟨s', ds⟩))
    ∧ (min.natAbs ≤ 2 ^ 53 → heldBound min = min)
    ∧ (max.natAbs ≤ 2 ^ 53 → heldBound max = max) := by
  refine ⟨fun hle => ?_, fun hlt => ?_, fun h =>
    ⟨exists_resolve_int now hmin hmax h, exists_resolve_int_eq now hmin hmax h⟩, heldBound_eq_self,
    heldBound_eq_self⟩
  · have hheld := heldBound_mono hle
    constructor
    · intro h
      have hsound (n : Int) (hlow : heldBound min ≤ n) (hhigh : n ≤ heldBound max) :
          min ≤ n ∧ n ≤ max := by
        obtain ⟨words, s', hrun⟩ :=
          exists_resolve_int_eq now hmin hmax hheld (.ofSeed 0) [] n hlow hhigh
        obtain ⟨n', s'', hrun', hn'⟩ := h _ []
        rw [hrun] at hrun'
        cases hrun'
        exact hn'
      exact ⟨(hsound _ le_rfl hheld).1, (hsound _ hheld le_rfl).2⟩
    · rintro ⟨hlow, hhigh⟩ s ds
      obtain ⟨n, s', hrun, hmem⟩ := exists_resolve_int now hmin hmax hheld s ds
      exact ⟨n, s', hrun, hlow.trans hmem.1, hmem.2.trans hhigh⟩
  · refine ⟨fun h => not_le.1 fun hheld => ?_, resolve_int_of_lt hmin hmax now⟩
    obtain ⟨n, s', hrun, -⟩ := exists_resolve_int now hmin hmax hheld (.ofSeed 0) []
    rw [h] at hrun
    cases hrun

/-- A die, and its bounds the wrong way round. -/
theorem resolve_int_iff_die :
    IsInt64 1 ∧ IsInt64 6
      ∧ (∀ s ds, ∃ n s', (resolve (source ⟨0⟩) (intDirective 1 6)).run ⟨s, ds⟩
          = .ok (.ofInt n, ⟨s', ds⟩) ∧ 1 ≤ n ∧ n ≤ 6)
      ∧ ∀ s ds, (resolve (source ⟨0⟩) (intDirective 6 1)).run ⟨s, ds⟩
          = .ok (.string "number.int", ⟨s, ds ++ [refusal 6 1]⟩) := by
  have hone : IsInt64 1 := ⟨by decide, by decide⟩
  have hsix : IsInt64 6 := ⟨by decide, by decide⟩
  obtain ⟨hwithin, -, -, hmin, hmax⟩ := resolve_int_iff ⟨0⟩ hone hsix
  obtain ⟨-, hcrossed, -⟩ := resolve_int_iff ⟨0⟩ hsix hone
  refine ⟨hone, hsix, (hwithin (by decide)).2 ⟨?_, ?_⟩, (hcrossed (by decide)).2 (by decide)⟩
  · rw [hmin (by decide)]
  · rw [hmax (by decide)]

/-- The least integer of 54 bits that is no double: as both bounds it gives the integer before it,
and as the lower of two crossed bounds it meets the upper one. -/
theorem resolve_int_longBounds :
    (∃ s', (resolve (source ⟨0⟩) (intDirective 9007199254740993 9007199254740993)).run
        ⟨.ofSeed 1, []⟩ = .ok (.ofInt 9007199254740992, ⟨s', []⟩))
      ∧ ∃ s', (resolve (source ⟨0⟩) (intDirective 9007199254740993 9007199254740992)).run
        ⟨.ofSeed 1, []⟩ = .ok (.ofInt 9007199254740992, ⟨s', []⟩) := by
  have hlong : IsInt64 9007199254740993 := ⟨by decide, by decide⟩
  have hpower : IsInt64 9007199254740992 := ⟨by decide, by decide⟩
  have hheld : heldBound 9007199254740993 = 9007199254740992 := by decide
  have hself : heldBound 9007199254740992 = 9007199254740992 := by decide
  have hdrawn (s : KeyStream) :
      ((intBetween 9007199254740992 9007199254740992).run s).1 = 9007199254740992 := by
    obtain ⟨hlow, hhigh⟩ := intBetween_mem (le_refl 9007199254740992) (by decide) s
    exact le_antisymm hhigh hlow
  constructor
  · have hrun := resolve_int_of_le hlong hlong ⟨0⟩ le_rfl (.ofSeed 1) []
    rw [hheld, hdrawn] at hrun
    exact ⟨_, hrun⟩
  · have hrun := resolve_int_of_le hlong hpower ⟨0⟩ (by rw [hheld, hself]) (.ofSeed 1) []
    rw [hheld, hself, hdrawn] at hrun
    exact ⟨_, hrun⟩

end JsonTemplate.Generator
