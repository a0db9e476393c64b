import JsonTemplate.Proofs.NumberText
import JsonTemplate.Proofs.Rounding
import Mathlib.Data.Nat.Cast.Order.Field
import Mathlib.Tactic.NormNum

/-!
# Shortest decimals round to their double

The decimal that is chosen for a double lies in the interval around it (`holds_shortest`): a hit on
a decimal grid lies there (`holds_of_onGrid?`), and the seventeenth grid is so fine that it has one
(`exists_onGrid?`).
-/

namespace JsonTemplate

open Text

/-- As many digits as the powers of ten on both sides say. -/
theorem Text.pow_length_natText {n : Nat} (h : n ≠ 0) :
    10 ^ ((natText n).length - 1) ≤ n ∧ n < 10 ^ (natText n).length := by
  have hiff : ∀ k, 0 < k → ((natText n).length ≤ k ↔ n < 10 ^ k) :=
    fun k => Nat.length_toDigits_le_iff (by decide)
  refine ⟨?_, (hiff _ Nat.length_toDigits_pos).1 le_rfl⟩
  rcases Nat.eq_zero_or_pos ((natText n).length - 1) with h0 | hpos
  · rw [h0, pow_zero]
    exact Nat.one_le_iff_ne_zero.2 h
  · by_contra hlt
    have := (hiff _ hpos).2 (not_le.1 hlt)
    omega

namespace Decimal

/-- What a decimal denotes. -/
def value (d : Decimal) : ℚ :=
  d.digits * 10 ^ d.exponent

theorem value_normalize : ∀ (n : Nat) (d : Decimal), (normalize n d).value = d.value
  | 0, _ => rfl
  | n + 1, d => by
    rw [normalize]
    split
    · rename_i h
      have hdigits : d.digits = d.digits / 10 * 10 := by omega
      rw [value_normalize n, value, value, zpow_add_one₀ (by norm_num)]
      conv_rhs => rw [hdigits]
      push_cast
      ring
    · rfl

/-! ## Grids -/

theorem pow_toNat (a : ℚ) (ha : a ≠ 0) (z : Int) : a ^ z.toNat = a ^ z * a ^ (-z).toNat := by
  rw [← zpow_natCast, ← zpow_natCast, ← zpow_add₀ ha]
  congr 1
  omega

namespace Interval

/-- The step of a grid, as `onGrid?` compares it. -/
def unit (i : Interval) (k : Int) : Nat :=
  Nat.pow 10 k.toNat <<< (-i.exponent).toNat

/-- The step of the interval's own grid, as `onGrid?` compares it. -/
def scale (i : Interval) (k : Int) : Nat :=
  Nat.pow 10 (-k).toNat <<< i.exponent.toNat

theorem unit_pos (i : Interval) (k : Int) : 0 < i.unit k := by
  simp [unit, Nat.shiftLeft_eq]

theorem scale_pos (i : Interval) (k : Int) : 0 < i.scale k := by
  simp [scale, Nat.shiftLeft_eq]

/-- Both steps have been multiplied by one number. -/
theorem unit_mul (i : Interval) (k : Int) :
    (i.unit k : ℚ) * 2 ^ i.exponent = i.scale k * 10 ^ k := by
  simp only [unit, scale, Nat.shiftLeft_eq, Nat.pow_eq, Nat.cast_mul, Nat.cast_pow, Nat.cast_ofNat]
  rw [pow_toNat 10 (by norm_num) k, pow_toNat 2 two_ne_zero i.exponent]
  ring

theorem holds_iff {i : Interval} {k : Int} {p : Nat} :
    i.Holds (p * 10 ^ k) ↔ Between i.closed (i.low * i.scale k) (i.high * i.scale k)
      (p * i.unit k) := by
  have hpower : (0 : ℚ) < 2 ^ i.exponent := by positivity
  have hscale : (0 : ℚ) < i.scale k := Nat.cast_pos.2 (i.scale_pos k)
  have hvalue : (p : ℚ) * i.unit k * 2 ^ i.exponent = p * 10 ^ k * i.scale k := by
    rw [mul_assoc, unit_mul, mul_assoc, mul_comm ((10 : ℚ) ^ k)]
  rw [Holds, ← Between.mul_iff hscale, ← Between.mul_iff hpower (v := p * i.unit k), hvalue,
    mul_right_comm, mul_right_comm (i.high : ℚ)]

/-- The last multiple of the step not above the centre. -/
def below (i : Interval) (k : Int) : Nat :=
  i.centre * i.scale k / i.unit k

/-- The neighbour below the centre lies within the interval. -/
def FromBelow (i : Interval) (k : Int) : Prop :=
  i.low * i.scale k < i.below k * i.unit k
    ∨ i.closed = true ∧ i.low * i.scale k = i.below k * i.unit k

/-- The neighbour above the centre lies within the interval. -/
def FromAbove (i : Interval) (k : Int) : Prop :=
  (i.below k + 1) * i.unit k < i.high * i.scale k
    ∨ i.closed = true ∧ (i.below k + 1) * i.unit k = i.high * i.scale k

/-- A hit is one of the two neighbours of the centre. -/
theorem onGrid?_cases (i : Interval) (tie : Tie) (k : Int) :
    (∃ p, i.onGrid? tie k = some p ∧
      (p = i.below k ∧ i.FromBelow k ∨ p = i.below k + 1 ∧ i.FromAbove k)) ∨
      i.onGrid? tie k = none ∧ ¬ i.FromBelow k ∧ ¬ i.FromAbove k := by
  unfold onGrid? FromBelow FromAbove below unit scale
  dsimp only
  generalize Nat.pow 10 k.toNat <<< (-i.exponent).toNat = unit
  generalize Nat.pow 10 (-k).toNat <<< i.exponent.toNat = scale
  generalize i.centre * scale / unit = below
  generalize 2 * (i.centre * scale - below * unit) = distance
  simp only [Nat.add_one_mul, Bool.and_eq_true, Bool.or_eq_true, decide_eq_true_eq, beq_iff_eq]
  by_cases hbelow : i.low * scale < below * unit ∨ i.closed = true ∧ i.low * scale = below * unit
    <;> by_cases habove : below * unit + unit < i.high * scale
      ∨ i.closed = true ∧ below * unit + unit = i.high * scale
  · rw [if_pos ⟨hbelow, habove⟩]
    split_ifs
    · exact .inl ⟨_, rfl, .inl ⟨rfl, hbelow⟩⟩
    · exact .inl ⟨_, rfl, .inr ⟨rfl, habove⟩⟩
    · cases tie with
      | toEven =>
        rcases Nat.mod_two_eq_zero_or_one below with h | h
        · exact .inl ⟨_, rfl, .inl ⟨by omega, hbelow⟩⟩
        · exact .inl ⟨_, rfl, .inr ⟨by omega, habove⟩⟩
      | upward => exact .inl ⟨_, rfl, .inr ⟨rfl, habove⟩⟩
  · rw [if_neg fun h => habove h.2, if_pos hbelow]
    exact .inl ⟨_, rfl, .inl ⟨rfl, hbelow⟩⟩
  · rw [if_neg fun h => hbelow h.1, if_neg hbelow, if_pos habove]
    exact .inl ⟨_, rfl, .inr ⟨rfl, habove⟩⟩
  · rw [if_neg fun h => hbelow h.1, if_neg hbelow, if_neg habove]
    exact .inr ⟨rfl, hbelow, habove⟩

/-- A hit lies within the interval. -/
theorem holds_of_onGrid? {i : Interval} (hlow : i.low ≤ i.centre) (hhigh : i.centre < i.high)
    {tie : Tie} {k : Int} {p : Nat} (h : i.onGrid? tie k = some p) : i.Holds (p * 10 ^ k) := by
  have hbelow : i.below k * i.unit k ≤ i.centre * i.scale k := Nat.div_mul_le_self _ _
  have habove : i.centre * i.scale k < (i.below k + 1) * i.unit k := by
    rw [mul_comm (i.below k + 1)]
    exact Nat.lt_mul_div_succ _ (i.unit_pos k)
  have hlow' : i.low * i.scale k ≤ i.centre * i.scale k := Nat.mul_le_mul_right _ hlow
  have hhigh' : i.centre * i.scale k < i.high * i.scale k :=
    Nat.mul_lt_mul_of_pos_right hhigh (i.scale_pos k)
  rw [holds_iff]
  rcases i.onGrid?_cases tie k with ⟨q, hq, hcases⟩ | ⟨hnone, -⟩
  · obtain rfl : q = p := Option.some.inj (hq.symm.trans h)
    rcases hcases with ⟨rfl, hfrom⟩ | ⟨rfl, hfrom⟩
    · refine ⟨?_, .inl ?_⟩
      · unfold FromBelow at hfrom
        exact_mod_cast hfrom
      · exact_mod_cast hbelow.trans_lt hhigh'
    · refine ⟨.inl ?_, ?_⟩
      · exact_mod_cast hlow'.trans_lt habove
      · unfold FromAbove at hfrom
        exact_mod_cast hfrom
  · rw [hnone] at h
    cases h

/-- A grid finer than the interval has a hit. -/
theorem exists_onGrid? (i : Interval) (tie : Tie) {k : Int}
    (h : 10 ^ k < ((i.high : ℚ) - i.low) * 2 ^ i.exponent) : ∃ p, i.onGrid? tie k = some p := by
  rcases i.onGrid?_cases tie k with ⟨p, hp, -⟩ | ⟨-, hbelow, habove⟩
  · exact ⟨p, hp⟩
  · exfalso
    have hb : i.below k * i.unit k ≤ i.low * i.scale k := not_lt.1 fun h => hbelow (.inl h)
    have ha : i.high * i.scale k ≤ (i.below k + 1) * i.unit k := not_lt.1 fun h => habove (.inl h)
    have hfine : (i.unit k : ℚ) < (i.high - i.low) * i.scale k := by
      have hscale : (0 : ℚ) < i.scale k := Nat.cast_pos.2 (i.scale_pos k)
      have hscaled := mul_lt_mul_of_pos_left h hscale
      rw [← unit_mul, ← mul_assoc] at hscaled
      have hstep := lt_of_mul_lt_mul_right hscaled (by positivity)
      rwa [mul_comm (i.scale k : ℚ)] at hstep
    have hb' : (i.below k * i.unit k : ℚ) ≤ i.low * i.scale k := by exact_mod_cast hb
    have ha' : (i.high * i.scale k : ℚ) ≤ (i.below k + 1) * i.unit k := by exact_mod_cast ha
    linarith

end Interval

/-! ## Seventeen digits -/

theorem zpow_neg_le_div {num den j : Nat} (hden : 0 < den) (h : den ≤ num * 10 ^ j) :
    (10 : ℚ) ^ (-(j : Int)) ≤ num / den := by
  rw [le_div_iff₀ (Nat.cast_pos.2 hden), zpow_neg, inv_mul_le_iff₀ (by positivity), mul_comm,
    zpow_natCast]
  exact_mod_cast h

theorem leadingExponent_le {num den : Nat} (hnum : 0 < num) (hden : 0 < den) :
    (10 : ℚ) ^ leadingExponent num den ≤ num / den := by
  rw [leadingExponent]
  split
  · rename_i hle
    have hpos : num / den ≠ 0 := (Nat.div_pos hle hden).ne'
    have hlength := pow_length_natText hpos
    have hexp : ((natText (num / den)).length : Int) - 1
        = ((natText (num / den)).length - 1 : Nat) := by
      have : 0 < (natText (num / den)).length := Nat.length_toDigits_pos
      omega
    calc (10 : ℚ) ^ (((natText (num / den)).length : Int) - 1)
        = ((10 ^ ((natText (num / den)).length - 1) : Nat) : ℚ) := by
          rw [hexp, zpow_natCast, Nat.cast_pow, Nat.cast_ofNat]
      _ ≤ ((num / den : Nat) : ℚ) := Nat.cast_le.2 hlength.1
      _ ≤ num / den := Nat.cast_div_le
  · rename_i hlt
    have hpos : den / num ≠ 0 := (Nat.div_pos (not_le.1 hlt).le hnum).ne'
    have hlength := (Nat.div_lt_iff_lt_mul hnum).1 (pow_length_natText hpos).2
    dsimp only
    split
    · rename_i h
      exact zpow_neg_le_div hden h
    · rw [← neg_add', ← Nat.cast_succ]
      refine zpow_neg_le_div hden ?_
      have : 0 < (natText (den / num)).length := Nat.length_toDigits_pos
      rw [mul_comm]
      refine hlength.le.trans_eq ?_
      congr 2
      exact (Nat.sub_add_cancel this).symm

/-- Sixteen digits after the leading one make a grid finer than the interval around a double. -/
theorem zpow_lt_width_around {m : Nat} {e k : Int} (hm : 0 < m) (hfull : m ≤ Binary64.fullMantissa)
    (hk : (10 : ℚ) ^ k ≤ m * 2 ^ e) : (10 : ℚ) ^ (k - 16) <
      (((Interval.around m e).high : ℚ) - (Interval.around m e).low)
        * 2 ^ (Interval.around m e).exponent := by
  have hunit : (0 : ℚ) < 2 ^ e := by positivity
  have hwidth : (m : ℚ) < 10 ^ 16 * (Binary64.halfGap m e + 1 / 2) := by
    unfold Binary64.halfGap
    split
    · rename_i hpower
      rw [hpower.1]
      norm_num [Binary64.hiddenBit]
    · refine (Nat.cast_le.2 hfull).trans_lt ?_
      norm_num [Binary64.fullMantissa]
  rw [sub_mul, Binary64.high_around, Binary64.low_around hm, zpow_sub₀ (by norm_num)]
  calc (10 : ℚ) ^ k / 10 ^ (16 : Int) ≤ m * 2 ^ e / 10 ^ (16 : Int) := by gcongr
    _ = m / 10 ^ 16 * 2 ^ e := by
      rw [div_mul_eq_mul_div]
      rfl
    _ < (Binary64.halfGap m e + 1 / 2) * 2 ^ e := by
      gcongr
      rwa [div_lt_iff₀' (by norm_num)]
    _ = (m + 1 / 2) * 2 ^ e - (m - Binary64.halfGap m e) * 2 ^ e := by ring

/-- A decimal chosen for a double lies in the interval around it. -/
theorem holds_shortest (tie : Tie) {m : Nat} (e : Int) (hm : 0 < m)
    (hfull : m ≤ Binary64.fullMantissa) : (Interval.around m e).Holds (shortest tie m e).value := by
  rw [shortest]
  dsimp only
  have hratio := Binary64.scaleDown_ratio m 1 (-e)
  have hden := Binary64.scaleDown_den_pos m Nat.one_pos (-e)
  generalize Binary64.scaleDown m 1 (-e) = fraction at hratio hden ⊢
  obtain ⟨num, den⟩ := fraction
  dsimp only at hratio hden ⊢
  have hvalue : (num / den : ℚ) = m * 2 ^ e := by
    rw [hratio, Nat.cast_one, div_one, zpow_neg, div_inv_eq_mul]
  have hnum : 0 < num := by
    rcases Nat.eq_zero_or_pos num with rfl | h
    · rw [Nat.cast_zero, zero_div] at hvalue
      exact absurd hvalue (by positivity)
    · exact h
  have hleading := (leadingExponent_le hnum hden).trans_eq hvalue
  obtain ⟨digits, hdigits⟩ := (Interval.around m e).exists_onGrid? tie
    (zpow_lt_width_around hm hfull hleading)
  rw [value_normalize]
  generalize hfound : List.findSome? _ _ = found
  cases found with
  | none =>
    have := List.findSome?_eq_none_iff.1 hfound 16 (by decide)
    simp [hdigits] at this
  | some d =>
    obtain ⟨n, -, hd⟩ := List.exists_of_findSome?_eq_some hfound
    obtain ⟨p, hp, rfl⟩ := Option.map_eq_some_iff.1 hd
    refine Interval.holds_of_onGrid? ?_ ?_ hp
    · unfold Interval.around
      dsimp only
      split <;> omega
    · exact Nat.lt_add_of_pos_right Nat.two_pos

end Decimal

end JsonTemplate
