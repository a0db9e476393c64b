import JsonTemplate.Proofs.DoubleValues

/-!
# Overflow

A sum, a product or a quotient of finite doubles is the exact one, rounded once (`Rounded`). It is
an infinity from half a unit beyond the greatest double on (`Rounded.isFinite_iff`), since the
greatest mantissa is odd; and a difference that is finite may still be too large to be divided by a
number just below one (`Rounded.top_le_iff`).
-/

namespace JsonTemplate.Binary64

/-- The finite doubles in standard form, with their values. -/
inductive Denotes : Binary64 → ℚ → Prop
  | mk {s : Bool} {m : Nat} {e : Int} (h : IsStandard m e) :
    Denotes (.finite s m e) (signed s (m * 2 ^ e))

/-- The double nearest to a value, which may be an infinity. -/
inductive Rounded : ℚ → Binary64 → Prop
  | mk (s : Bool) (num : Nat) {den : Nat} (hden : 0 < den) :
    Rounded (signed s (num / den)) (ofRatio s num den)

/-- The distance between the largest doubles. -/
@[irreducible] def topUnit : ℚ := 2 ^ greatestExponent

theorem topUnit_eq : topUnit = 2 ^ greatestExponent := by
  unfold topUnit
  rfl

theorem topUnit_pos : 0 < topUnit := by
  rw [topUnit_eq]
  positivity

theorem two_lt_topUnit : 2 < topUnit := by
  rw [topUnit_eq]
  calc (2 : ℚ) = 2 ^ (1 : Int) := (zpow_one 2).symm
    _ < 2 ^ greatestExponent := zpow_lt_zpow_right₀ one_lt_two (by decide)

/-- The least magnitude that is rounded to an infinity. -/
def overflow : ℚ := (2 ^ 53 - 1 / 2) * topUnit

theorem overflow_pos : 0 < overflow := by
  unfold overflow
  exact mul_pos (by norm_num) topUnit_pos

/-- Something small more than the greatest double is not yet rounded to an infinity. -/
theorem lt_overflow {v : ℚ} (h : v ≤ (2 ^ 53 - 1) * topUnit + 1) : v < overflow := by
  have htwo := two_lt_topUnit
  unfold overflow
  linarith

theorem abs_signed (s : Bool) {v : ℚ} (h : 0 ≤ v) : |signed s v| = v := by
  cases s <;> simp [signed, abs_of_nonneg h]

theorem signed_mul (s t : Bool) (v w : ℚ) : signed (s ^^ t) (v * w) = signed s v * signed t w := by
  cases s <;> cases t <;> simp [signed]

/-! ## Rounding near the greatest double -/

/-- An even number is reached from half a unit below it on. -/
theorem le_roundHalfEven_iff {n d k : Nat} (hd : 0 < d) (hk : k % 2 = 0) :
    k ≤ roundHalfEven n d ↔ (k : ℚ) - 1 / 2 ≤ n / d := by
  have hd' : (0 : ℚ) < d := Nat.cast_pos.2 hd
  have hcast : (k : ℚ) - 1 / 2 ≤ n / d ↔ 2 * (k * d) ≤ 2 * n + d := by
    rw [le_div_iff₀ hd', ← @Nat.cast_le ℚ]
    push_cast
    constructor <;> intro h <;> linarith
  have hdiv := Nat.div_add_mod n d
  have hmod := Nat.mod_lt n hd
  rw [hcast, roundHalfEven]
  generalize n / d = q at hdiv ⊢
  generalize n % d = r at hdiv hmod ⊢
  subst hdiv
  rcases lt_trichotomy k (q + 1) with hlt | rfl | hgt
  · have hle : k * d ≤ d * q := by
      rw [mul_comm d q]
      exact Nat.mul_le_mul_right d (by omega)
    split_ifs <;> omega
  · have hsucc : (q + 1) * d = d * q + d := by ring
    rw [hsucc]
    split_ifs <;> omega
  · have hle : d * q + 2 * d ≤ k * d := by
      rw [mul_comm d q, ← Nat.add_mul]
      exact Nat.mul_le_mul_right d (by omega)
    split_ifs <;> omega

theorem roundHalfEven_mul_le (n d : Nat) : roundHalfEven n d * d ≤ 2 * n := by
  have hdiv := Nat.div_add_mod n d
  rw [roundHalfEven]
  generalize n / d = q at hdiv ⊢
  generalize n % d = r at hdiv ⊢
  subst hdiv
  split_ifs
  · rw [mul_comm q d]
    omega
  · have hsucc : (q + 1) * d = d * q + d := by ring
    omega
  · have hle : (q + q % 2) * d ≤ (q + q) * d := Nat.mul_le_mul_right d (by omega)
    have htwice : (q + q) * d = 2 * (d * q) := by ring
    omega

theorem scaled_le_of_isExponent {num den : Nat} {e : Int} (hden : 0 < den)
    (h : IsExponent (num / den) e) :
    roundHalfEven (scaleDown num den e).1 (scaleDown num den e).2 ≤ 2 ^ 53 := by
  have hd := scaleDown_den_pos num hden e
  have hupper := (div_lt_iff₀ (by positivity)).2 h.upper
  rw [← scaleDown_ratio, div_lt_iff₀ (Nat.cast_pos.2 hd)] at hupper
  exact roundHalfEven_le (by exact_mod_cast hupper.le)

/-- A fraction is scaled by its exponent, rounded and packed. -/
theorem exists_pack_of_ofRatio (s : Bool) {num den : Nat} (hnum : 0 < num) (hden : 0 < den) :
    ∃ e r, IsExponent (num / den) e
      ∧ roundHalfEven (scaleDown num den e).1 (scaleDown num den e).2 = r ∧ r ≤ 2 ^ 53
      ∧ ofRatio s num den = pack s r e :=
  have hexp := isExponent_exponentOf hnum.ne' hden.ne'
  ⟨_, _, hexp, rfl, scaled_le_of_isExponent hden hexp, by rw [ofRatio, if_neg hnum.ne']⟩

theorem pack_cases (s : Bool) {k : Nat} (hk : k ≤ 2 ^ 53) (e : Int) :
    k = 2 ^ 53 ∧ pack s k e = (if greatestExponent < e + 1 then .infinity s
        else .finite s hiddenBit (e + 1))
      ∨ k < 2 ^ 53 ∧ pack s k e = if greatestExponent < e then .infinity s else .finite s k e := by
  have hfull : fullMantissa = 2 ^ 53 - 1 := by decide
  unfold pack
  by_cases hcarry : fullMantissa < k
  · exact .inl ⟨by omega, by rw [if_pos hcarry]⟩
  · exact .inr ⟨by omega, by rw [if_neg hcarry]⟩

theorem pack_of_gt (s : Bool) {k : Nat} (hk : k ≤ 2 ^ 53) {e : Int} (h : greatestExponent < e) :
    pack s k e = .infinity s := by
  rcases pack_cases s hk e with ⟨-, hpack⟩ | ⟨-, hpack⟩
  · rw [hpack, if_pos (by omega)]
  · rw [hpack, if_pos h]

/-- From below, only the least of the largest doubles is reached: by a carry. -/
theorem pack_of_lt (s : Bool) {k : Nat} (hk : k ≤ 2 ^ 53) {e : Int} (h : e < greatestExponent) :
    ∃ m f, pack s k e = .finite s m f ∧ (f = greatestExponent → m = hiddenBit) := by
  rcases pack_cases s hk e with ⟨-, hpack⟩ | ⟨-, hpack⟩
  · exact ⟨_, _, by rw [hpack, if_neg (by omega)], fun _ => rfl⟩
  · exact ⟨_, _, by rw [hpack, if_neg (by omega)], fun hf => absurd hf h.ne⟩

/-- Among the largest doubles, and infinity beyond them, the order is that of the mantissas. -/
theorem le_pack_greatestExponent_iff (s : Bool) {k r : Nat} (hk : k ≤ 2 ^ 53) (hr : r ≤ 2 ^ 53) :
    (pack s r greatestExponent = .infinity s
      ∨ ∃ m, k ≤ m ∧ pack s r greatestExponent = .finite s m greatestExponent) ↔ k ≤ r := by
  rcases pack_cases s hr greatestExponent with ⟨hfull, hpack⟩ | ⟨-, hpack⟩
  · rw [hpack, if_pos (by omega)]
    exact iff_of_true (.inl rfl) (by omega)
  · rw [hpack, if_neg (lt_irrefl _)]
    constructor
    · rintro (h | ⟨m, hm, h⟩)
      · cases h
      · obtain ⟨-, rfl, -⟩ := finite.inj h
        exact hm
    · exact fun hle => .inr ⟨r, hle, rfl⟩

/-- Where the fractions of one exponent end, those of the next one begin. -/
theorem full_le_of_lt {e f : Int} (h : e < f) : (2 : ℚ) ^ 53 * 2 ^ e ≤ 2 ^ 52 * 2 ^ f := by
  have hpow : (2 : ℚ) ^ (e + 1) ≤ 2 ^ f := zpow_le_zpow_right₀ one_le_two h
  rw [zpow_add_one₀ two_ne_zero] at hpow
  linarith

theorem full_le_topUnit {e : Int} (h : e < greatestExponent) :
    (2 : ℚ) ^ 53 * 2 ^ e ≤ 2 ^ 52 * topUnit := by
  rw [topUnit_eq]
  exact full_le_of_lt h

theorem topUnit_full_le {e : Int} (h : greatestExponent < e) :
    2 ^ 53 * topUnit ≤ (2 : ℚ) ^ 52 * 2 ^ e := by
  rw [topUnit_eq]
  exact full_le_of_lt h

/-- Among the largest doubles an even mantissa is reached from half a unit below it on. Beyond them
is infinity. -/
theorem le_ofRatio_iff (s : Bool) (num : Nat) {den k : Nat} (hden : 0 < den) (hk : k % 2 = 0)
    (hlow : 2 ^ 52 < k) (hhigh : k ≤ 2 ^ 53) :
    ((k : ℚ) - 1 / 2) * topUnit ≤ num / den
      ↔ ofRatio s num den = .infinity s
        ∨ ∃ m, k ≤ m ∧ ofRatio s num den = .finite s m greatestExponent := by
  have hlow' : (2 : ℚ) ^ 52 + 1 ≤ k := by exact_mod_cast hlow
  have hhigh' : (k : ℚ) ≤ 2 ^ 53 := by exact_mod_cast hhigh
  have hunit := topUnit_pos
  rcases num.eq_zero_or_pos with rfl | hnum
  · refine iff_of_false (not_le.2 ?_) ?_
    · rw [Nat.cast_zero, zero_div]
      exact mul_pos (by linarith) hunit
    · rw [ofRatio, if_pos rfl, zero]
      rintro (h | ⟨m, -, h⟩) <;> cases h
  obtain ⟨e, r, hexp, hr, hround, hratio⟩ := exists_pack_of_ofRatio s hnum hden
  rw [hratio]
  rcases lt_trichotomy e greatestExponent with hlt | rfl | hgt
  · obtain ⟨m, f, hpack, hleast⟩ := pack_of_lt s hround hlt
    refine iff_of_false (not_le.2 (hexp.upper.trans_le ?_)) ?_
    · exact (full_le_topUnit hlt).trans
        (mul_le_mul_of_nonneg_right (by linarith) hunit.le)
    · rw [hpack]
      rintro (h | ⟨m', hm, h⟩)
      · cases h
      · obtain ⟨-, rfl, rfl⟩ := finite.inj h
        have hbit : hiddenBit = 2 ^ 52 := by decide
        rw [hleast rfl] at hm
        omega
  · rw [le_pack_greatestExponent_iff s hhigh hround, ← le_div_iff₀ hunit, topUnit_eq,
      ← scaleDown_ratio, ← le_roundHalfEven_iff (scaleDown_den_pos num hden _) hk, hr]
  · have hleast : e ≠ leastExponent := by
      rintro rfl
      exact absurd hgt (by decide)
    refine iff_of_true ?_ (.inl (pack_of_gt s hround hgt))
    exact (mul_le_mul_of_nonneg_right (by linarith) hunit.le).trans
      ((topUnit_full_le hgt).trans (hexp.lower.resolve_left hleast))

/-- Rounding at most doubles a fraction. -/
theorem ofRatio_cases (s : Bool) (num : Nat) {den : Nat} (hden : 0 < den) :
    ofRatio s num den = .infinity s
      ∨ ∃ m e, ofRatio s num den = .finite s m e ∧ (m : ℚ) * 2 ^ e ≤ 2 * (num / den) := by
  rcases num.eq_zero_or_pos with rfl | hnum
  · exact .inr ⟨0, leastExponent, by rw [ofRatio, if_pos rfl, zero], by simp⟩
  obtain ⟨e, r, -, hr, hround, hratio⟩ := exists_pack_of_ofRatio s hnum hden
  have hdouble : (r : ℚ) * 2 ^ e ≤ 2 * (num / den) := by
    have hd : (0 : ℚ) < (scaleDown num den e).2 := Nat.cast_pos.2 (scaleDown_den_pos num hden e)
    have hmul := roundHalfEven_mul_le (scaleDown num den e).1 (scaleDown num den e).2
    rw [hr, ← @Nat.cast_le ℚ, Nat.cast_mul, Nat.cast_mul, ← le_div_iff₀ hd, mul_div_assoc,
      scaleDown_ratio, ← mul_div_assoc, le_div_iff₀ (by positivity)] at hmul
    exact_mod_cast hmul
  rw [hratio]
  rcases pack_cases s hround e with ⟨hr, h⟩ | ⟨-, h⟩
  · rw [h]
    split_ifs
    · exact .inl rfl
    · refine .inr ⟨_, _, rfl, ?_⟩
      rw [hr] at hdouble
      rw [cast_hiddenBit, zpow_add_one₀ two_ne_zero]
      push_cast at hdouble
      linarith
  · rw [h]
    split_ifs
    · exact .inl rfl
    · exact .inr ⟨_, _, rfl, hdouble⟩

/-! ## Values -/

theorem eq_greatest_of_lt {m : Nat} {e : Int} (h : IsStandard m e)
    (hlt : 2 ^ 52 * topUnit < (m : ℚ) * 2 ^ e) : e = greatestExponent := by
  refine h.greatest.lt_or_eq.resolve_left fun hlower => hlt.not_ge ?_
  calc (m : ℚ) * 2 ^ e ≤ 2 ^ 53 * 2 ^ e :=
        mul_le_mul_of_nonneg_right (by linarith [cast_le_of_isStandard h])
          (zpow_nonneg zero_le_two e)
    _ ≤ 2 ^ 52 * topUnit := full_le_topUnit hlower

namespace Denotes

variable {x : Binary64} {q : ℚ}

theorem value? (h : x.Denotes q) : x.value? = some q := by
  cases h
  rfl

theorem unique {r : ℚ} (h : x.Denotes q) (h' : x.Denotes r) : q = r :=
  Option.some.inj (h.value?.symm.trans h'.value?)

theorem isFinite (h : x.Denotes q) : x.isFinite = true := by
  cases h
  rfl

theorem abs_le (h : x.Denotes q) : |q| ≤ (2 ^ 53 - 1) * topUnit := by
  cases h with
  | @mk s m e h =>
    rw [abs_signed s (by positivity)]
    have hm := cast_le_of_isStandard h
    have hpow : (2 : ℚ) ^ e ≤ topUnit := by
      rw [topUnit_eq]
      exact zpow_le_zpow_right₀ one_le_two h.greatest
    exact mul_le_mul hm hpow (by positivity) (by norm_num)

theorem neg (h : x.Denotes q) : x.neg.Denotes (-q) := by
  cases h with
  | @mk s m e h =>
    have hneg : -signed s (m * 2 ^ e) = signed (!s) (m * 2 ^ e) := by cases s <;> simp [signed]
    rw [hneg]
    exact .mk h

/-- Between two of the largest doubles there is no other one. -/
theorem succ_mul_le (h : x.Denotes q) {c : Nat} (hc : 2 ^ 52 ≤ c) (hlt : c * topUnit < q) :
    (c + 1 : Nat) * topUnit ≤ q := by
  have hunit := topUnit_pos
  have hbits : 2 ^ 52 * topUnit ≤ c * topUnit :=
    mul_le_mul_of_nonneg_right (by exact_mod_cast hc) hunit.le
  cases h with
  | @mk s m e h =>
    cases s with
    | true =>
      have hneg : signed true ((m : ℚ) * 2 ^ e) ≤ 0 :=
        neg_nonpos.2 (mul_nonneg m.cast_nonneg (zpow_nonneg zero_le_two e))
      exact absurd (hlt.trans_le hneg) (not_lt.2 (mul_nonneg c.cast_nonneg hunit.le))
    | false =>
      change c * topUnit < m * 2 ^ e at hlt
      change (c + 1 : Nat) * topUnit ≤ m * 2 ^ e
      obtain rfl := eq_greatest_of_lt h (hbits.trans_lt hlt)
      rw [← topUnit_eq] at hlt ⊢
      have hm := lt_of_mul_lt_mul_right hlt hunit.le
      exact mul_le_mul_of_nonneg_right (by exact_mod_cast hm) hunit.le

end Denotes

theorem denotes_ofRatio {s s' : Bool} {num den m : Nat} {e : Int} (hden : 0 < den)
    (h : ofRatio s num den = .finite s' m e) :
    (ofRatio s num den).Denotes (signed s' (m * 2 ^ e)) := by
  rw [h]
  exact .mk (isStandard_of_ofRatio hden h)

/-- An integer of 64 bits is rounded to a double. -/
theorem denotes_nearest {n : Int} (h : n.natAbs ≤ 2 ^ 64) : (ofInt n).Denotes (nearest n) := by
  obtain ⟨s, m, e, hfinite, hq⟩ := exists_finite_of_value? (value?_ofInt (log2_lt_of_le h))
  rw [hq]
  exact denotes_ofRatio one_pos hfinite

/-- An integer that is not too large is a double. -/
theorem denotes_ofInt {n : Int} (h : n.natAbs ≤ 2 ^ 53) : (ofInt n).Denotes n := by
  have hnearest := denotes_nearest (by omega : n.natAbs ≤ 2 ^ 64)
  rwa [nearest_eq_self h] at hnearest

namespace Rounded

variable {v : ℚ} {x : Binary64}

theorem eq_infinity (h : Rounded v x) (hv : overflow ≤ |v|) : x = .infinity (decide (v < 0)) := by
  cases h with
  | @mk s num den hden =>
    have hnonneg : (0 : ℚ) ≤ num / den := by positivity
    rw [abs_signed s hnonneg] at hv
    have hpos : (0 : ℚ) < num / den := overflow_pos.trans_le hv
    have hsign : decide (signed s ((num : ℚ) / den) < 0) = s := by
      cases s with
      | false => simpa [signed] using hnonneg
      | true => simpa [signed] using hpos
    rw [hsign]
    rcases (le_ofRatio_iff s num (k := 2 ^ 53) hden (by decide) (by decide) le_rfl).1
      (by exact_mod_cast hv) with h | ⟨m, hm, h⟩
    · exact h
    · have hfull := (isStandard_of_ofRatio hden h).mantissa
      unfold fullMantissa at hfull
      omega

theorem exists_denotes (h : Rounded v x) (hv : |v| < overflow) :
    ∃ r, x.Denotes r ∧ |r| ≤ 2 * |v| ∧ (0 ≤ v → 0 ≤ r) := by
  cases h with
  | @mk s num den hden =>
    have hnonneg : (0 : ℚ) ≤ num / den := by positivity
    rw [abs_signed s hnonneg] at hv ⊢
    rcases ofRatio_cases s num hden with h | ⟨m, e, h, hdouble⟩
    · refine absurd hv (not_lt.2 ?_)
      exact_mod_cast
        (le_ofRatio_iff s num (k := 2 ^ 53) hden (by decide) (by decide) le_rfl).2 (.inl h)
    · refine ⟨_, denotes_ofRatio hden h, ?_, fun hv => ?_⟩
      · rwa [abs_signed s (by positivity)]
      · cases s with
        | false =>
          exact mul_nonneg (Nat.cast_nonneg m) (by positivity)
        | true =>
          have hzero : (num : ℚ) / den = 0 := le_antisymm (by simpa [signed] using hv) hnonneg
          rw [hzero, mul_zero] at hdouble
          simpa [signed] using hdouble

theorem isFinite_iff (h : Rounded v x) : x.isFinite = true ↔ |v| < overflow := by
  constructor
  · intro hfinite
    by_contra hv
    rw [h.eq_infinity (not_lt.1 hv)] at hfinite
    cases hfinite
  · intro hv
    obtain ⟨r, hr, -⟩ := h.exists_denotes hv
    exact hr.isFinite

/-- The greatest double but one is reached from half a unit below it on. -/
theorem top_le_iff (h : Rounded v x) (hv : 0 ≤ v) {r : ℚ} (hr : x.Denotes r) :
    (2 ^ 53 - 2) * topUnit ≤ r ↔ (2 ^ 53 - 2 - 1 / 2) * topUnit ≤ v := by
  have hunit := topUnit_pos
  cases h with
  | @mk s num den hden =>
    rcases ofRatio_cases s num hden with h | ⟨m, e, h, -⟩
    · rw [h] at hr
      cases hr
    · have hs := isStandard_of_ofRatio hden h
      obtain rfl := (denotes_ofRatio hden h).unique hr
      cases s with
      | true =>
        have hfraction : (0 : ℚ) ≤ num / den := div_nonneg num.cast_nonneg den.cast_nonneg
        have hnum : signed true ((num : ℚ) / den) ≤ 0 := neg_nonpos.2 hfraction
        have hneg : signed true ((m : ℚ) * 2 ^ e) ≤ 0 :=
          neg_nonpos.2 (mul_nonneg m.cast_nonneg (zpow_nonneg zero_le_two e))
        exact iff_of_false (fun hle => by linarith) fun hle => by linarith
      | false =>
        change (2 ^ 53 - 2) * topUnit ≤ m * 2 ^ e ↔ (2 ^ 53 - 2 - 1 / 2) * topUnit ≤ num / den
        have hiff := le_ofRatio_iff false num (k := 2 ^ 53 - 2) hden (by decide) (by decide)
          (by decide)
        have htop : ((2 ^ 53 - 2 : Nat) : ℚ) = 2 ^ 53 - 2 := by norm_num
        rw [htop, h] at hiff
        rw [hiff]
        constructor
        · intro hle
          have hlt : 2 ^ 52 * topUnit < (m : ℚ) * 2 ^ e :=
            (mul_lt_mul_of_pos_right (by norm_num) hunit).trans_le hle
          obtain rfl := eq_greatest_of_lt hs hlt
          rw [← topUnit_eq] at hle
          have hm := le_of_mul_le_mul_right hle hunit
          rw [← htop] at hm
          exact .inr ⟨m, by exact_mod_cast hm, rfl⟩
        · rintro (h | ⟨m', hm', h⟩)
          · cases h
          · obtain ⟨-, rfl, rfl⟩ := finite.inj h
            rw [← htop, ← topUnit_eq]
            exact mul_le_mul_of_nonneg_right (by exact_mod_cast hm') hunit.le

end Rounded

/-! ## Arithmetic -/

theorem rounded_zero (s : Bool) : Rounded 0 (zero s) := by
  have hzero : (0 : ℚ) = signed s ((0 : Nat) / (1 : Nat)) := by simp [signed]
  have hratio : zero s = ofRatio s 0 1 := by rw [ofRatio, if_pos rfl]
  rw [hzero, hratio]
  exact .mk s _ one_pos

theorem rounded_ofScaled (s : Bool) (n : Nat) (e : Int) :
    Rounded (signed s (n * 2 ^ e)) (ofScaled s n e) := by
  unfold ofScaled
  split_ifs with he
  · lift e to Nat using he
    have hcast : (n : ℚ) * 2 ^ (e : Int) = ((n <<< e : Nat) : ℚ) / (1 : Nat) := by
      rw [Nat.shiftLeft_eq]
      push_cast
      rw [div_one, zpow_natCast]
    rw [hcast, Int.toNat_natCast]
    exact .mk s _ one_pos
  · obtain ⟨k, rfl⟩ : ∃ k : Nat, e = -k := ⟨(-e).toNat, by omega⟩
    have hcast : (n : ℚ) * (2 : ℚ) ^ (-k : Int) = (n : ℚ) / ((1 <<< k : Nat) : ℚ) := by
      rw [Nat.one_shiftLeft, zpow_neg, zpow_natCast, div_eq_mul_inv]
      push_cast
      rfl
    rw [hcast, neg_neg, Int.toNat_natCast]
    exact .mk s _ (by rw [Nat.one_shiftLeft]; positivity)

theorem signed_natAbs (n : Int) : signed (decide (n < 0)) n.natAbs = n := by
  rcases lt_or_ge n 0 with h | h
  · simp [signed, h, abs_of_neg (Int.cast_lt_zero.2 h : (n : ℚ) < 0)]
  · simp [signed, h.not_gt, abs_of_nonneg (Int.cast_nonneg h : (0 : ℚ) ≤ n)]

namespace Denotes

variable {x y : Binary64} {q r : ℚ}

theorem add (hx : x.Denotes q) (hy : y.Denotes r) : Rounded (q + r) (x + y) := by
  cases hx with
  | @mk s m e hs =>
  cases hy with
  | @mk t n f ht =>
    have hsum := congrArg₂ (· + ·) (cast_aligned s m (min_le_left e f))
      (cast_aligned t n (min_le_right e f))
    rw [← add_mul, ← Int.cast_add] at hsum
    change Rounded _ (if aligned s m e (min e f) + aligned t n f (min e f) = 0 then _ else _)
    rw [← hsum]
    generalize aligned s m e (min e f) + aligned t n f (min e f) = sum
    split_ifs with hzero
    · rw [hzero, Int.cast_zero, zero_mul]
      exact rounded_zero _
    · have hrounded := rounded_ofScaled (decide (sum < 0)) sum.natAbs (min e f)
      have hsigned (v : ℚ) : signed (decide (sum < 0)) (sum.natAbs * v) = sum * v := by
        have := signed_mul (decide (sum < 0)) false sum.natAbs v
        rw [Bool.xor_false, signed_natAbs] at this
        exact this
      rwa [hsigned] at hrounded

theorem sub (hx : x.Denotes q) (hy : y.Denotes r) : Rounded (q - r) (x - y) := by
  rw [sub_eq_add_neg]
  exact hx.add hy.neg

theorem mul (hx : x.Denotes q) (hy : y.Denotes r) : Rounded (q * r) (x * y) := by
  cases hx with
  | @mk s m e hs =>
  cases hy with
  | @mk t n f ht =>
    have hrounded := rounded_ofScaled (s ^^ t) (m * n) (e + f)
    have hvalue : ((m * n : Nat) : ℚ) * 2 ^ (e + f) = m * 2 ^ e * (n * 2 ^ f) := by
      rw [zpow_add₀ two_ne_zero]
      push_cast
      ring
    rwa [hvalue, signed_mul] at hrounded

theorem div (hx : x.Denotes q) (hy : y.Denotes r) (hr : r ≠ 0) : Rounded (q / r) (x / y) := by
  cases hx with
  | @mk s m e hs =>
  cases hy with
  | @mk t n f ht =>
    have hn : n ≠ 0 := by
      rintro rfl
      simp [signed] at hr
    change Rounded _ (if n = 0 then _ else _)
    rw [if_neg hn]
    have hrounded := Rounded.mk (s ^^ t) (scaleDown m n (f - e)).1
      (scaleDown_den_pos m (Nat.pos_of_ne_zero hn) (f - e))
    have hvalue : (m : ℚ) / n / (2 : ℚ) ^ (f - e) = m * 2 ^ e * ((n : ℚ) * 2 ^ f)⁻¹ := by
      rw [zpow_sub₀ two_ne_zero]
      field_simp
    have hinv : signed t (((n : ℚ) * 2 ^ f)⁻¹) = (signed t (n * 2 ^ f))⁻¹ := by
      cases t
      · rfl
      · simp only [signed, if_true, inv_neg]
    rw [scaleDown_ratio, hvalue, signed_mul, hinv, ← div_eq_mul_inv] at hrounded
    exact hrounded

/-! ## Integers -/

/-- An integer next to a double is a double. -/
theorem toIntegral (hx : x.Denotes q) {choose : Bool → Nat → Nat → Nat}
    (hr : (x.toIntegral choose).value? = some r) : (x.toIntegral choose).Denotes r := by
  cases hx with
  | @mk s m e h =>
    unfold Binary64.toIntegral at hr ⊢
    dsimp only at hr ⊢
    split_ifs at hr ⊢
    · cases hr
      exact .mk h
    · obtain ⟨t, n, f, hfinite, rfl⟩ := exists_finite_of_value? hr
      exact denotes_ofRatio one_pos hfinite

theorem floor (hx : x.Denotes q) : x.floor.Denotes ⌊q⌋ := by
  refine hx.toIntegral ?_
  cases hx with
  | mk h => exact value?_floor h.mantissa

theorem ceil (hx : x.Denotes q) : x.ceil.Denotes ⌈q⌉ := by
  refine hx.toIntegral ?_
  cases hx with
  | mk h => exact value?_ceil h.mantissa

end Denotes

end JsonTemplate.Binary64
