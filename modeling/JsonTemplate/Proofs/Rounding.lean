import JsonTemplate.Decimal.Shortest
import Mathlib.Algebra.Order.Field.Power
import Mathlib.Data.Rat.Cast.Order
import Mathlib.Tactic.FieldSimp
import Mathlib.Tactic.Linarith
import Mathlib.Tactic.Ring

/-!
# Rounding to a double

A fraction is rounded at the exponent that leaves 53 bits before the point (`IsExponent`). Every
fraction in the interval around a double is rounded to that double (`ofRatio_eq_finite`), and a
rounded fraction is a double in standard form (`isStandard_of_ofRatio`).
-/

namespace JsonTemplate

/-- Between two bounds, which belong to the range if it is closed. -/
def Between (closed : Bool) (lo hi v : ℚ) : Prop :=
  (lo < v ∨ closed = true ∧ lo = v) ∧ (v < hi ∨ closed = true ∧ v = hi)

namespace Between

variable {closed : Bool} {lo hi v : ℚ}

theorem le_left (h : Between closed lo hi v) : lo ≤ v :=
  h.1.elim le_of_lt fun h => h.2.le

theorem le_right (h : Between closed lo hi v) : v ≤ hi :=
  h.2.elim le_of_lt fun h => h.2.le

theorem mul_iff {c : ℚ} (hc : 0 < c) :
    Between closed (lo * c) (hi * c) (v * c) ↔ Between closed lo hi v := by
  simp only [Between, mul_lt_mul_iff_left₀ hc, mul_left_inj' hc.ne']

end Between

/-- The reals that an interval holds. -/
def Decimal.Interval.Holds (i : Decimal.Interval) (v : ℚ) : Prop :=
  Between i.closed (i.low * 2 ^ i.exponent) (i.high * 2 ^ i.exponent) v

namespace Binary64

/-- The mantissas and exponents of the finite doubles: 53 bits, or fewer at the least exponent. -/
structure IsStandard (m : Nat) (e : Int) : Prop where
  mantissa : m ≤ fullMantissa
  least : leastExponent ≤ e
  greatest : e ≤ greatestExponent
  bits : hiddenBit ≤ m ∨ e = leastExponent

/-! ## Rounding to an integer -/

theorem roundHalfEven_eq {n d k : Nat} (hd : 0 < d)
    (h : Between (k % 2 == 0) (k - 1 / 2) (k + 1 / 2) (n / d)) : roundHalfEven n d = k := by
  have hd' : (0 : ℚ) < d := Nat.cast_pos.2 hd
  -- both bounds as statements about integers, strict ones for an odd result
  have hlo : 2 * (k * d) < 2 * n + d ∨ k % 2 = 0 ∧ 2 * (k * d) = 2 * n + d := by
    refine h.1.imp (fun h => ?_) fun h => ⟨beq_iff_eq.1 h.1, ?_⟩
    · have := (lt_div_iff₀ hd').1 h
      have : (2 * (k * d) : ℚ) < 2 * n + d := by linarith
      exact_mod_cast this
    · have := (eq_div_iff hd'.ne').1 h.2
      have : (2 * (k * d) : ℚ) = 2 * n + d := by linarith
      exact_mod_cast this
  have hhi : 2 * n < 2 * (k * d) + d ∨ k % 2 = 0 ∧ 2 * n = 2 * (k * d) + d := by
    refine h.2.imp (fun h => ?_) fun h => ⟨beq_iff_eq.1 h.1, ?_⟩
    · have := (div_lt_iff₀ hd').1 h
      have : (2 * n : ℚ) < 2 * (k * d) + d := by linarith
      exact_mod_cast this
    · have := (div_eq_iff hd'.ne').1 h.2
      have : (2 * n : ℚ) = 2 * (k * d) + d := by linarith
      exact_mod_cast this
  have hn : d * (n / d) + n % d = n := Nat.div_add_mod n d
  have hr : n % d < d := Nat.mod_lt n hd
  rw [roundHalfEven]
  generalize n / d = q at hn ⊢
  generalize n % d = r at hn hr ⊢
  subst hn
  have hkq : k = q ∨ k = q + 1 := by
    have hlow : q < k + 1 := by
      by_contra hge
      have : d * (k + 1) ≤ d * q := Nat.mul_le_mul_left d (not_lt.1 hge)
      rw [Nat.mul_succ, Nat.mul_comm d k] at this
      omega
    have hhigh : k < q + 2 := by
      by_contra hge
      have : d * (q + 2) ≤ d * k := Nat.mul_le_mul_left d (not_lt.1 hge)
      rw [Nat.mul_add, Nat.mul_comm d k] at this
      omega
    omega
  rcases hkq with rfl | rfl
  · rw [Nat.mul_comm k d] at hlo hhi
    split_ifs <;> omega
  · rw [Nat.mul_comm (q + 1) d, Nat.mul_succ] at hlo hhi
    split_ifs <;> omega

theorem le_roundHalfEven {n d k : Nat} (hd : 0 < d) (h : k * d ≤ n) : k ≤ roundHalfEven n d := by
  have hq : k ≤ n / d := (Nat.le_div_iff_mul_le hd).2 h
  rw [roundHalfEven]
  split_ifs <;> omega

/-! ## The exponent of a fraction -/

theorem scaleDown_ratio (num den : Nat) (e : Int) :
    ((scaleDown num den e).1 : ℚ) / (scaleDown num den e).2 = num / den / 2 ^ e := by
  unfold scaleDown
  split
  · lift e to Nat using ‹_›
    simp [Nat.shiftLeft_eq, div_div]
  · obtain ⟨n, rfl⟩ : ∃ n : Nat, e = -n := ⟨(-e).toNat, by omega⟩
    simp [Nat.shiftLeft_eq, div_eq_mul_inv, mul_right_comm]

theorem scaleDown_den_pos (num : Nat) {den : Nat} (h : 0 < den) (e : Int) :
    0 < (scaleDown num den e).2 := by
  unfold scaleDown
  split
  · simpa [Nat.shiftLeft_eq] using h
  · exact h

/-- A fraction has 53 bits at an exponent, or fewer at the least one. -/
structure IsExponent (v : ℚ) (e : Int) : Prop where
  least : leastExponent ≤ e
  upper : v < 2 ^ 53 * 2 ^ e
  lower : e = leastExponent ∨ 2 ^ 52 * 2 ^ e ≤ v

theorem exponentOf_eq (num den : Nat) {guess : Int} (h : (num.log2 : Int) - den.log2 - 52 = guess) :
    exponentOf num den = max leastExponent
      (if (scaleDown num den guess).1 < (scaleDown num den guess).2 <<< 52 then guess - 1
        else guess) := by
  rw [exponentOf, h]

/-- A number lies between the powers of two on both sides of its logarithm. -/
theorem zpow_log2_le {n : Nat} (h : n ≠ 0) :
    (2 : ℚ) ^ (n.log2 : Int) ≤ n ∧ (n : ℚ) < 2 ^ (n.log2 + 1 : Int) := by
  constructor
  · rw [zpow_natCast]
    exact_mod_cast Nat.log2_self_le h
  · rw [← Nat.cast_succ, zpow_natCast]
    exact_mod_cast Nat.lt_log2_self

theorem isExponent_exponentOf {num den : Nat} (hnum : num ≠ 0) (hden : den ≠ 0) :
    IsExponent (num / den) (exponentOf num den) := by
  have hden' : (0 : ℚ) < den := Nat.cast_pos.2 (Nat.pos_of_ne_zero hden)
  obtain ⟨hnlow, hnhigh⟩ := zpow_log2_le hnum
  obtain ⟨hdlow, hdhigh⟩ := zpow_log2_le hden
  obtain ⟨guess, hguess⟩ : ∃ g : Int, g = (num.log2 : Int) - den.log2 - 52 := ⟨_, rfl⟩
  -- the guess is right or too large by one
  have hlow : 2 ^ 52 * 2 ^ (guess - 1) ≤ (num / den : ℚ) := by
    rw [le_div_iff₀ hden']
    calc 2 ^ 52 * 2 ^ (guess - 1) * (den : ℚ)
        ≤ 2 ^ 52 * 2 ^ (guess - 1) * 2 ^ (den.log2 + 1 : Int) := by gcongr
      _ = 2 ^ (num.log2 : Int) := by
        rw [← zpow_natCast, ← zpow_add₀ two_ne_zero, ← zpow_add₀ two_ne_zero, hguess]
        congr 1
        omega
      _ ≤ num := hnlow
  have hhigh : (num / den : ℚ) < 2 ^ 53 * 2 ^ guess := by
    rw [div_lt_iff₀ hden']
    calc (num : ℚ) < 2 ^ (num.log2 + 1 : Int) := hnhigh
      _ = 2 ^ 53 * 2 ^ guess * 2 ^ (den.log2 : Int) := by
        rw [← zpow_natCast, ← zpow_add₀ two_ne_zero, ← zpow_add₀ two_ne_zero, hguess]
        congr 1
        omega
      _ ≤ 2 ^ 53 * 2 ^ guess * den := by gcongr
  obtain ⟨e, he, hbits⟩ : ∃ e, exponentOf num den = max leastExponent e ∧
      2 ^ 52 * 2 ^ e ≤ (num / den : ℚ) ∧ (num / den : ℚ) < 2 ^ 53 * 2 ^ e := by
    have hd : (0 : ℚ) < (scaleDown num den guess).2 :=
      Nat.cast_pos.2 (scaleDown_den_pos num (Nat.pos_of_ne_zero hden) guess)
    have hratio := scaleDown_ratio num den guess
    rw [div_eq_iff hd.ne'] at hratio
    have htest : (scaleDown num den guess).1 < (scaleDown num den guess).2 <<< 52 ↔
        (num / den : ℚ) < 2 ^ 52 * 2 ^ guess := by
      have hcast : ∀ a b : Nat, a < b ↔ (a : ℚ) < b := fun _ _ => Nat.cast_lt.symm
      rw [hcast, hratio, Nat.shiftLeft_eq, Nat.cast_mul, mul_comm, mul_lt_mul_iff_right₀ hd,
        div_lt_iff₀ (by positivity)]
      norm_num
    have hdef := exponentOf_eq num den hguess.symm
    by_cases h : (num / den : ℚ) < 2 ^ 52 * 2 ^ guess
    · rw [if_pos (htest.2 h)] at hdef
      refine ⟨guess - 1, hdef, hlow, h.trans_eq ?_⟩
      rw [zpow_sub_one₀ two_ne_zero]
      ring
    · rw [if_neg (htest.not.2 h)] at hdef
      exact ⟨guess, hdef, not_lt.1 h, hhigh⟩
  rw [he]
  refine ⟨le_max_left _ _, hbits.2.trans_le ?_, ?_⟩
  · exact mul_le_mul_of_nonneg_left (zpow_le_zpow_right₀ one_le_two (le_max_right _ _))
      (by positivity)
  · rcases max_choice leastExponent e with h | h
    · exact .inl h
    · rw [h]
      exact .inr hbits.1

/-! ## The interval around a double -/

/-- Half the distance to the double below, in units of the double's own exponent. -/
def halfGap (m : Nat) (e : Int) : ℚ :=
  if m = hiddenBit ∧ leastExponent < e then 1 / 4 else 1 / 2

theorem halfGap_le (m : Nat) (e : Int) : halfGap m e ≤ 1 / 2 := by
  unfold halfGap
  split <;> norm_num

theorem low_around {m : Nat} {e : Int} (hm : 0 < m) :
    ((Decimal.Interval.around m e).low : ℚ) * 2 ^ (Decimal.Interval.around m e).exponent
      = (m - halfGap m e) * 2 ^ e := by
  have hsub : ∀ k : Nat, k < 4 → ((4 * m - k : Nat) : ℚ) * 2 ^ (e - 2) = (m - k / 4) * 2 ^ e := by
    intro k hk
    rw [Nat.cast_sub (by omega), zpow_sub₀ two_ne_zero]
    push_cast
    ring
  rw [halfGap, Decimal.Interval.around]
  dsimp only
  split
  · rw [hsub 1 (by norm_num), Nat.cast_one]
  · rw [hsub 2 (by norm_num)]
    norm_num

theorem high_around (m : Nat) (e : Int) :
    ((Decimal.Interval.around m e).high : ℚ) * 2 ^ (Decimal.Interval.around m e).exponent
      = (m + 1 / 2) * 2 ^ e := by
  simp only [Decimal.Interval.around, zpow_sub₀ (two_ne_zero : (2 : ℚ) ≠ 0)]
  push_cast
  ring

theorem holds_around_iff {m : Nat} {e : Int} {v : ℚ} (hm : 0 < m) :
    (Decimal.Interval.around m e).Holds v ↔ Between (m % 2 == 0)
      (m - halfGap m e) (m + 1 / 2) (v / 2 ^ e) := by
  have hunit : (0 : ℚ) < 2 ^ e := by positivity
  rw [← Between.mul_iff hunit, div_mul_cancel₀ v hunit.ne', Decimal.Interval.Holds, low_around hm,
    high_around]
  rfl

theorem cast_hiddenBit : (hiddenBit : ℚ) = 2 ^ 52 := by
  norm_num [hiddenBit]

theorem cast_le_of_isStandard {m : Nat} {e : Int} (hs : IsStandard m e) :
    (m : ℚ) ≤ 2 ^ 53 - 1 := by
  refine (Nat.cast_le.2 hs.mantissa).trans_eq ?_
  norm_num [fullMantissa]

section Near

variable {m : Nat} {e : Int} {v : ℚ} (hm : 0 < m) (hv : (Decimal.Interval.around m e).Holds v)
include hm hv

theorem sub_half_le_of_holds : (m : ℚ) - 1 / 2 ≤ v / 2 ^ e := by
  have hlow := ((holds_around_iff hm).1 hv).le_left
  linarith [halfGap_le m e]

theorem pos_of_holds : 0 < v := by
  have hm' : (1 : ℚ) ≤ m := Nat.one_le_cast.2 hm
  have hlow := (le_div_iff₀ (by positivity)).1 (sub_half_le_of_holds hm hv)
  exact (mul_pos (by linarith) (by positivity)).trans_le hlow

/-- The fractions near the positive doubles. -/
theorem range_of_holds (hs : IsStandard m e) :
    (2 : ℚ) ^ (-1075 : Int) ≤ v ∧ v < 2 ^ (1024 : Int) := by
  have hunit : (0 : ℚ) < 2 ^ e := by positivity
  have hlow := (le_div_iff₀ hunit).1 (sub_half_le_of_holds hm hv)
  have hhigh := (div_le_iff₀ hunit).1 ((holds_around_iff hm).1 hv).le_right
  have hm' : (1 : ℚ) ≤ m := Nat.one_le_cast.2 hm
  constructor
  · calc (2 : ℚ) ^ (-1075 : Int) = 1 / 2 * 2 ^ leastExponent := by
          rw [leastExponent, show (-1075 : Int) = -1 + -1074 from rfl, zpow_add₀ two_ne_zero,
            zpow_neg_one, one_div]
      _ ≤ 1 / 2 * 2 ^ e := by
        have := zpow_le_zpow_right₀ (one_le_two : (1 : ℚ) ≤ 2) hs.least
        linarith
      _ ≤ (m - 1 / 2) * 2 ^ e := by
        gcongr
        linarith
      _ ≤ v := hlow
  · calc v ≤ (m + 1 / 2) * 2 ^ e := hhigh
      _ < 2 ^ 53 * 2 ^ e := by
        gcongr
        linarith [cast_le_of_isStandard hs]
      _ ≤ 2 ^ 53 * 2 ^ greatestExponent := by
        have := zpow_le_zpow_right₀ (one_le_two : (1 : ℚ) ≤ 2) hs.greatest
        linarith
      _ = 2 ^ (1024 : Int) := by
        rw [greatestExponent, ← zpow_natCast, ← zpow_add₀ two_ne_zero]
        rfl

/-- Near a double a fraction has the exponent of the double, or that of the doubles below a power
of two. -/
theorem IsExponent.eq_of_holds (hs : IsStandard m e) {e' : Int} (h : IsExponent v e') :
    e' = e ∨ e' = e - 1 ∧ m = hiddenBit ∧ leastExponent < e := by
  have hunit : (0 : ℚ) < 2 ^ e := by positivity
  have hlow := (le_div_iff₀ hunit).1 (sub_half_le_of_holds hm hv)
  have hhigh := (div_le_iff₀ hunit).1 ((holds_around_iff hm).1 hv).le_right
  rcases lt_trichotomy e' e with hlt | heq | hgt
  · have hleast : leastExponent < e := h.least.trans_lt hlt
    have hbits : (2 : ℚ) ^ 52 ≤ m := by
      rw [← cast_hiddenBit]
      exact Nat.cast_le.2 (hs.bits.resolve_right hleast.ne')
    have hupper := h.upper
    by_cases hfar : e' ≤ e - 2
    · have hquarter : (2 : ℚ) ^ e' ≤ 2 ^ e / 4 := by
        refine (zpow_le_zpow_right₀ one_le_two hfar).trans_eq ?_
        rw [zpow_sub₀ two_ne_zero]
        norm_num
      have : (2 ^ 52 - 1 / 2) * (2 : ℚ) ^ e ≤ (m - 1 / 2) * 2 ^ e := by gcongr
      linarith
    · obtain rfl : e' = e - 1 := by omega
      rw [zpow_sub_one₀ two_ne_zero] at hupper
      have hless : (m : ℚ) - 1 / 2 < 2 ^ 52 := by
        refine lt_of_mul_lt_mul_right ?_ hunit.le
        linarith
      have hm52 : (m : ℚ) < (hiddenBit + 1 : Nat) := by
        push_cast
        rw [cast_hiddenBit]
        linarith
      rw [← cast_hiddenBit] at hbits
      exact .inr ⟨rfl, le_antisymm (Nat.lt_succ_iff.1 (Nat.cast_lt.1 hm52)) (Nat.cast_le.1 hbits),
        hleast⟩
  · exact .inl heq
  · have hlower := h.lower.resolve_left (hs.least.trans_lt hgt).ne'
    have hfull := cast_le_of_isStandard hs
    have hdouble : (2 : ℚ) ^ e * 2 ≤ 2 ^ e' := by
      rw [← zpow_add_one₀ two_ne_zero]
      exact zpow_le_zpow_right₀ one_le_two hgt
    have : (m + 1 / 2) * (2 : ℚ) ^ e ≤ (2 ^ 53 - 1 / 2) * 2 ^ e := by
      gcongr
      linarith
    linarith

end Near

/-- A fraction near a double is rounded to it. -/
theorem ofRatio_eq_finite {negative : Bool} {num den m : Nat} {e : Int} (hden : 0 < den)
    (hm : 0 < m) (hs : IsStandard m e) (hv : (Decimal.Interval.around m e).Holds (num / den)) :
    ofRatio negative num den = .finite negative m e := by
  have hnum : num ≠ 0 := by
    rintro rfl
    have := pos_of_holds hm hv
    simp at this
  have hexp := isExponent_exponentOf hnum hden.ne'
  have hbetween := (holds_around_iff hm).1 hv
  rw [ofRatio, if_neg hnum]
  dsimp only
  rcases hexp.eq_of_holds hm hv hs with heq | ⟨heq, rfl, hleast⟩
  · rw [heq] at hexp ⊢
    have hround : roundHalfEven (scaleDown num den e).1 (scaleDown num den e).2 = m := by
      refine roundHalfEven_eq (scaleDown_den_pos num hden e) ?_
      rw [scaleDown_ratio]
      unfold halfGap at hbetween
      split at hbetween
      · rename_i hpower
        have hlower := hexp.lower.resolve_left hpower.2.ne'
        rw [← cast_hiddenBit, ← hpower.1, ← le_div_iff₀ (by positivity)] at hlower
        exact ⟨.inl (by linarith), hbetween.2⟩
      · exact hbetween
    rw [hround, pack, if_neg hs.mantissa.not_gt]
    exact if_neg hs.greatest.not_gt
  · rw [heq] at hexp ⊢
    -- the doubles below lie so close that the fraction is rounded up to the power of two
    have hround : roundHalfEven (scaleDown num den (e - 1)).1 (scaleDown num den (e - 1)).2
        = 2 * hiddenBit := by
      refine roundHalfEven_eq (scaleDown_den_pos num hden (e - 1)) ?_
      have hupper := (div_lt_iff₀ (by positivity)).2 hexp.upper
      rw [halfGap, if_pos ⟨rfl, hleast⟩] at hbetween
      have hlow := hbetween.le_left
      have hhalf : (num / den / 2 ^ (e - 1) : ℚ) = 2 * (num / den / 2 ^ e) := by
        rw [zpow_sub_one₀ two_ne_zero]
        field_simp
      rw [scaleDown_ratio, hhalf]
      rw [hhalf] at hupper
      rw [cast_hiddenBit] at hlow
      constructor
      · rw [Nat.cast_mul, cast_hiddenBit]
        exact (lt_or_eq_of_le (by linarith)).imp_right fun h => ⟨rfl, h⟩
      · rw [Nat.cast_mul, cast_hiddenBit]
        exact .inl (by linarith)
    rw [hround, pack, if_pos (by decide)]
    dsimp only
    rw [sub_add_cancel]
    exact if_neg hs.greatest.not_gt

/-! ## Doubles that come of rounding -/

theorem isStandard_zero : IsStandard 0 leastExponent where
  mantissa := Nat.zero_le _
  least := le_rfl
  greatest := by decide
  bits := .inr rfl

theorem isStandard_of_pack {negative s : Bool} {k m : Nat} {e e' : Int} (hleast : leastExponent ≤ e)
    (hbits : hiddenBit ≤ k ∨ e = leastExponent) (h : pack negative k e = .finite s m e') :
    IsStandard m e' := by
  by_cases hfull : fullMantissa < k
  · rw [pack, if_pos hfull] at h
    dsimp only at h
    split at h
    · cases h
    · cases h
      exact ⟨by decide, by omega, by omega, .inl le_rfl⟩
  · rw [pack, if_neg hfull] at h
    dsimp only at h
    split at h
    · cases h
    · cases h
      exact ⟨by omega, hleast, by omega, hbits⟩

theorem isStandard_of_ofRatio {negative s : Bool} {num den m : Nat} {e : Int} (hden : 0 < den)
    (h : ofRatio negative num den = .finite s m e) : IsStandard m e := by
  rw [ofRatio] at h
  split at h
  · cases h
    exact isStandard_zero
  · rename_i hnum
    dsimp only at h
    have hexp := isExponent_exponentOf hnum hden.ne'
    refine isStandard_of_pack hexp.least (hexp.lower.symm.imp_left fun hlower => ?_) h
    have hd := scaleDown_den_pos num hden (exponentOf num den)
    refine le_roundHalfEven hd ?_
    rw [← le_div_iff₀ (by positivity), ← scaleDown_ratio, ← cast_hiddenBit,
      le_div_iff₀ (Nat.cast_pos.2 hd)] at hlower
    exact_mod_cast hlower

end Binary64

end JsonTemplate
