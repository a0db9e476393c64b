import JsonTemplate.Binary64.Arithmetic
import JsonTemplate.Proofs.Rounding
import Mathlib.Data.Rat.Floor
import Mathlib.Order.Compare

/-!
# Values of doubles

A finite double denotes a fraction (`value?`), and doubles are compared and cut off as these are. An
integer is rounded to a multiple of the power of two that leaves it 53 bits (`nearest`): never past
another integer (`nearest_mono`), and not at all if it has no more bits than that
(`nearest_eq_self`). So `floor` and `ceil` come to the integers that their names say.
-/

namespace JsonTemplate.Binary64

/-- A magnitude with a sign. -/
def signed (negative : Bool) (v : ℚ) : ℚ :=
  if negative then -v else v

/-- What a finite double denotes. -/
def value? : Binary64 → Option ℚ
  | .finite s m e => some (signed s (m * 2 ^ e))
  | .infinity _ | .nan => none

theorem exists_finite_of_value? {x : Binary64} {q : ℚ} (h : x.value? = some q) :
    ∃ s m e, x = .finite s m e ∧ q = signed s (m * 2 ^ e) := by
  cases x with
  | finite s m e => exact ⟨s, m, e, rfl, (Option.some.inj h).symm⟩
  | infinity s => cases h
  | nan => cases h

theorem value?_zero (negative : Bool) : (zero negative).value? = some 0 := by
  simp [zero, value?, signed]

/-! ## Order -/

theorem cast_aligned (negative : Bool) (m : Nat) {e base : Int} (h : base ≤ e) :
    (aligned negative m e base : ℚ) * 2 ^ base = signed negative (m * 2 ^ e) := by
  obtain ⟨k, rfl⟩ : ∃ k : Nat, e = base + k := ⟨(e - base).toNat, by omega⟩
  have hshift : ((m <<< k : Nat) : ℚ) * 2 ^ base = m * 2 ^ (base + k : Int) := by
    rw [Nat.shiftLeft_eq, zpow_add₀ two_ne_zero, zpow_natCast]
    push_cast
    ring
  have hdiff : (base + k - base).toNat = k := by omega
  rw [aligned, hdiff, signed, ← hshift]
  cases negative <;>
    simp only [Bool.false_eq_true, ↓reduceIte, Int.cast_neg, Int.cast_natCast, neg_mul]

/-- Finite doubles are ordered as their values are. -/
theorem compare?_eq {x y : Binary64} {q r : ℚ} (hx : x.value? = some q) (hy : y.value? = some r) :
    ∃ a b : Int, x.compare? y = some (compare a b) ∧ (a < b ↔ q < r) ∧ (a = b ↔ q = r) := by
  obtain ⟨s, m, e, rfl, rfl⟩ := exists_finite_of_value? hx
  obtain ⟨t, n, f, rfl, rfl⟩ := exists_finite_of_value? hy
  refine ⟨aligned s m e (min e f), aligned t n f (min e f), rfl, ?_, ?_⟩
  · rw [← cast_aligned s m (min_le_left e f), ← cast_aligned t n (min_le_right e f),
      mul_lt_mul_iff_left₀ (by positivity), Int.cast_lt]
  · rw [← cast_aligned s m (min_le_left e f), ← cast_aligned t n (min_le_right e f),
      mul_left_inj' (by positivity), Int.cast_inj]

theorem lt_iff {x y : Binary64} {q r : ℚ} (hx : x.value? = some q) (hy : y.value? = some r) :
    x.lt y = true ↔ q < r := by
  obtain ⟨a, b, hcompare, hlt, -⟩ := compare?_eq hx hy
  rw [lt, hcompare, beq_iff_eq, Option.some.injEq, compare_lt_iff_lt, hlt]

theorem le_iff {x y : Binary64} {q r : ℚ} (hx : x.value? = some q) (hy : y.value? = some r) :
    x.le y = true ↔ q ≤ r := by
  obtain ⟨a, b, hcompare, hlt, heq⟩ := compare?_eq hx hy
  rw [le, lt, hcompare, Bool.or_eq_true, beq_iff_eq, beq_iff_eq, Option.some.injEq,
    Option.some.injEq, compare_lt_iff_lt, compare_eq_iff_eq, hlt, heq, le_iff_lt_or_eq]

/-! ## Cutting off -/

/-- The integer part, towards zero. -/
def integerPart (q : ℚ) : Int :=
  if q < 0 then ⌈q⌉ else ⌊q⌋

theorem integerPart_intCast (n : Int) : integerPart n = n := by
  unfold integerPart
  split <;> simp

theorem integerPart_of_nonneg {q : ℚ} (h : 0 ≤ q) : integerPart q = ⌊q⌋ :=
  if_neg h.not_gt

theorem floor_magnitude (m : Nat) (e : Int) :
    ⌊(m : ℚ) * 2 ^ e⌋ = (if 0 ≤ e then m <<< e.toNat else m >>> (-e).toNat : Nat) := by
  split_ifs with h
  · lift e to Nat using h
    have hcast : (m : ℚ) * 2 ^ (e : Int) = ((m <<< e : Nat) : Int) := by
      rw [Nat.shiftLeft_eq]
      push_cast
      rfl
    rw [hcast, Int.floor_intCast, Int.toNat_natCast]
  · obtain ⟨k, rfl⟩ : ∃ k : Nat, e = -k := ⟨(-e).toNat, by omega⟩
    have hcast : (m : ℚ) * 2 ^ (-k : Int) = (m : ℚ) / ((2 ^ k : Nat) : ℚ) := by
      rw [zpow_neg, zpow_natCast, div_eq_mul_inv]
      push_cast
      rfl
    rw [hcast, Rat.floor_natCast_div_natCast, neg_neg, Int.toNat_natCast, Nat.shiftRight_eq_div_pow,
      Int.natCast_ediv]

theorem truncate_eq {x : Binary64} {q : ℚ} (hx : x.value? = some q) (lo hi : Int) :
    x.truncate lo hi = max lo (min hi (integerPart q)) := by
  obtain ⟨s, m, e, rfl, rfl⟩ := exists_finite_of_value? hx
  have hnonneg : (0 : ℚ) ≤ m * 2 ^ e := by positivity
  rw [truncate, ← floor_magnitude]
  cases s with
  | false => rw [if_neg Bool.false_ne_true, signed, if_neg Bool.false_ne_true,
      integerPart_of_nonneg hnonneg]
  | true =>
    rw [if_pos rfl, signed, if_pos rfl, integerPart]
    split_ifs with hneg
    · rw [Int.ceil_neg]
    · have hzero : (m : ℚ) * 2 ^ e = 0 := le_antisymm (by linarith) hnonneg
      simp [hzero]

/-! ## Integers as doubles -/

theorem roundHalfEven_one (n : Nat) : roundHalfEven n 1 = n := by
  simp [roundHalfEven, Nat.mod_one]

theorem roundHalfEven_le {n d k : Nat} (h : n ≤ k * d) : roundHalfEven n d ≤ k := by
  rcases d.eq_zero_or_pos with rfl | hd
  · have hn : n = 0 := by omega
    subst hn
    simp [roundHalfEven]
  · have hdiv := Nat.div_add_mod n d
    have hmod := Nat.mod_lt n hd
    have hq : n / d ≤ k := Nat.div_le_of_le_mul (by rwa [mul_comm])
    rcases hq.lt_or_eq with hlt | heq
    · rw [roundHalfEven]
      split_ifs <;> omega
    · have hexact : n % d = 0 := by
        rw [heq, mul_comm d k] at hdiv
        omega
      simp [roundHalfEven, hexact, hd, heq]

theorem roundHalfEven_mono {a b : Nat} (d : Nat) (h : a ≤ b) :
    roundHalfEven a d ≤ roundHalfEven b d := by
  have hq : a / d ≤ b / d := Nat.div_le_div_right h
  have ha := Nat.div_add_mod a d
  have hb := Nat.div_add_mod b d
  rcases hq.lt_or_eq with hlt | heq
  · rw [roundHalfEven, roundHalfEven]
    split_ifs <;> omega
  · have hmod : a % d ≤ b % d := by
      rw [heq] at ha
      omega
    rw [roundHalfEven, roundHalfEven, heq]
    split_ifs <;> omega

/-- The number of bits that an integer has beyond 53. -/
def excessBits (n : Nat) : Nat :=
  n.log2 - 52

/-- A natural number rounded to 53 bits, a half to the even neighbour. -/
def nearestNat (n : Nat) : Nat :=
  roundHalfEven n (2 ^ excessBits n) * 2 ^ excessBits n

theorem lt_two_pow_excessBits (n : Nat) : n < 2 ^ 53 * 2 ^ excessBits n := by
  rw [← pow_add]
  exact Nat.lt_log2_self.trans_le (Nat.pow_le_pow_right (by decide) (by unfold excessBits; omega))

theorem two_pow_excessBits_le {n : Nat} (h : 0 < excessBits n) : 2 ^ 52 * 2 ^ excessBits n ≤ n := by
  unfold excessBits at h ⊢
  have hn : n ≠ 0 := by
    rintro rfl
    simp at h
  rw [← pow_add, Nat.add_sub_of_le (by omega)]
  exact Nat.log2_self_le hn

theorem excessBits_mono {a b : Nat} (h : a ≤ b) : excessBits a ≤ excessBits b := by
  rcases a.eq_zero_or_pos with rfl | ha
  · exact Nat.zero_le _
  · exact Nat.sub_le_sub_right
      ((Nat.le_log2 (by omega)).2 ((Nat.log2_self_le ha.ne').trans h)) 52

theorem nearestNat_eq_self {n : Nat} (h : n ≤ 2 ^ 53) : nearestNat n = n := by
  rcases h.lt_or_eq with hlt | rfl
  · have hexcess : excessBits n = 0 := by
      rcases n.eq_zero_or_pos with rfl | hn
      · rfl
      · have := (Nat.log2_lt hn.ne').2 hlt
        unfold excessBits
        omega
    rw [nearestNat, hexcess, pow_zero, mul_one, roundHalfEven_one]
  · decide

theorem nearestNat_mono {a b : Nat} (h : a ≤ b) : nearestNat a ≤ nearestNat b := by
  rcases (excessBits_mono h).lt_or_eq with hlt | heq
  · -- a power of two lies between
    have hbits : 2 ^ 53 * 2 ^ excessBits a ≤ 2 ^ 52 * 2 ^ excessBits b := by
      rw [← pow_add, ← pow_add]
      exact Nat.pow_le_pow_right (by decide) (by omega)
    calc nearestNat a ≤ 2 ^ 53 * 2 ^ excessBits a :=
          Nat.mul_le_mul_right _ (roundHalfEven_le (lt_two_pow_excessBits a).le)
      _ ≤ 2 ^ 52 * 2 ^ excessBits b := hbits
      _ ≤ nearestNat b :=
          Nat.mul_le_mul_right _
            (le_roundHalfEven (by positivity) (two_pow_excessBits_le (by omega)))
  · rw [nearestNat, nearestNat, heq]
    exact Nat.mul_le_mul_right _ (roundHalfEven_mono _ h)

/-- An integer rounded to 53 bits. -/
def nearest (n : Int) : Int :=
  n.sign * nearestNat n.natAbs

theorem nearest_natCast (n : Nat) : nearest n = nearestNat n := by
  rcases n.eq_zero_or_pos with rfl | hn
  · rfl
  · rw [nearest, Int.sign_natCast_of_ne_zero hn.ne', one_mul, Int.natAbs_natCast]

theorem nearest_neg (n : Int) : nearest (-n) = -nearest n := by
  rw [nearest, nearest, Int.sign_neg, Int.natAbs_neg, neg_mul]

theorem nearest_eq_self {n : Int} (h : n.natAbs ≤ 2 ^ 53) : nearest n = n := by
  rw [nearest, nearestNat_eq_self h, Int.sign_mul_natAbs]

theorem nearest_nonneg {n : Int} (h : 0 ≤ n) : 0 ≤ nearest n := by
  lift n to Nat using h
  rw [nearest_natCast]
  exact Int.natCast_nonneg _

theorem nearest_mono {a b : Int} (h : a ≤ b) : nearest a ≤ nearest b := by
  rcases le_total 0 a with ha | ha
  · lift a to Nat using ha
    lift b to Nat using by omega
    rw [nearest_natCast, nearest_natCast]
    exact_mod_cast nearestNat_mono (by omega)
  · obtain ⟨a, rfl⟩ : ∃ c : Nat, a = -c := ⟨a.natAbs, by omega⟩
    rcases le_total 0 b with hb | hb
    · calc nearest (-a) = -nearest a := nearest_neg a
        _ ≤ 0 := by linarith [nearest_nonneg (Int.natCast_nonneg a)]
        _ ≤ nearest b := nearest_nonneg hb
    · obtain ⟨b, rfl⟩ : ∃ c : Nat, b = -c := ⟨b.natAbs, by omega⟩
      rw [nearest_neg, nearest_neg, nearest_natCast, nearest_natCast]
      exact neg_le_neg (by exact_mod_cast nearestNat_mono (by omega))

/-- A mantissa that rounding has made a power of two is halved, and the value stays. -/
theorem value?_pack (negative : Bool) {k : Nat} {e : Int} (hk : k ≤ 2 ^ 53)
    (he : e < greatestExponent) :
    (pack negative k e).value? = some (signed negative (k * 2 ^ e)) := by
  have hfull : fullMantissa = 2 ^ 53 - 1 := by decide
  unfold pack
  by_cases hcarry : fullMantissa < k
  · have hk : k = 2 ^ 53 := by omega
    rw [if_pos hcarry]
    dsimp only
    rw [if_neg (by omega), value?, cast_hiddenBit, hk, zpow_add_one₀ two_ne_zero]
    push_cast
    ring_nf
  · rw [if_neg hcarry]
    dsimp only
    rw [if_neg (by omega), value?]

theorem exponentOf_one {n : Nat} (h : n ≠ 0) : exponentOf n 1 = n.log2 - 52 := by
  have hexp := isExponent_exponentOf h one_ne_zero
  rw [Nat.cast_one, div_one] at hexp
  obtain ⟨hlow, hhigh⟩ := zpow_log2_le h
  have hupper := hexp.upper
  rw [← zpow_natCast, ← zpow_add₀ two_ne_zero] at hupper
  have hle := (zpow_lt_zpow_iff_right₀ one_lt_two).1 (hlow.trans_lt hupper)
  rcases hexp.lower with hleast | hlower
  · unfold leastExponent at hleast
    omega
  · rw [← zpow_natCast, ← zpow_add₀ two_ne_zero] at hlower
    have hge := (zpow_lt_zpow_iff_right₀ one_lt_two).1 (hlower.trans_lt hhigh)
    omega

theorem value?_ofRatio_one (negative : Bool) {n : Nat} (hlog : n.log2 < 1023) :
    (ofRatio negative n 1).value? = some (signed negative (nearestNat n)) := by
  rcases n.eq_zero_or_pos with rfl | hn
  · simp [ofRatio, value?_zero, nearestNat_eq_self, signed]
  · have hgreatest : (n.log2 : Int) - 52 < greatestExponent := by
      unfold greatestExponent
      omega
    rw [ofRatio, if_neg hn.ne', exponentOf_one hn.ne']
    dsimp only
    by_cases hbits : 52 ≤ n.log2
    · obtain ⟨k, hk⟩ : ∃ k, n.log2 = 52 + k := ⟨n.log2 - 52, by omega⟩
      have hexcess : excessBits n = k := by
        unfold excessBits
        omega
      have hscale : (n.log2 : Int) - 52 = k := by omega
      rw [hscale] at hgreatest ⊢
      have hround : roundHalfEven n (2 ^ k) ≤ 2 ^ 53 :=
        roundHalfEven_le (hexcess ▸ (lt_two_pow_excessBits n).le)
      rw [scaleDown, if_pos (by omega), Int.toNat_natCast, Nat.one_shiftLeft]
      dsimp only
      rw [value?_pack negative hround hgreatest, nearestNat, hexcess]
      push_cast
      rfl
    · -- there are bits to spare
      obtain ⟨k, hk⟩ : ∃ k, n.log2 + k = 52 := ⟨52 - n.log2, by omega⟩
      have hscale : (n.log2 : Int) - 52 = -k := by omega
      rw [hscale] at hgreatest ⊢
      have hsmall : n * 2 ^ k ≤ 2 ^ 53 := by
        calc n * 2 ^ k ≤ 2 ^ (n.log2 + 1) * 2 ^ k :=
              Nat.mul_le_mul_right _ Nat.lt_log2_self.le
          _ = 2 ^ 53 := by rw [← pow_add]; congr 1; omega
      have hself : nearestNat n = n := nearestNat_eq_self
        ((Nat.le_mul_of_pos_right n (by positivity)).trans hsmall)
      rw [scaleDown, if_neg (by omega), neg_neg, Int.toNat_natCast, Nat.shiftLeft_eq]
      dsimp only
      rw [roundHalfEven_one, value?_pack negative hsmall hgreatest, hself]
      push_cast
      rw [zpow_neg, zpow_natCast, mul_assoc, mul_inv_cancel₀ (by positivity), mul_one]

/-- The double nearest to an integer has the rounded integer for its value. -/
theorem value?_ofInt {n : Int} (h : n.natAbs.log2 < 1023) :
    (ofInt n).value? = some (nearest n : ℚ) := by
  rw [ofInt, value?_ofRatio_one _ h, nearest, signed]
  rcases lt_trichotomy n 0 with hn | rfl | hn
  · simp [hn, Int.sign_eq_neg_one_of_neg hn]
  · simp [nearestNat_eq_self]
  · simp [hn.not_gt, Int.sign_eq_one_of_pos hn]

/-! ## The integers next to a value -/

theorem log2_lt_of_le {n : Nat} (h : n ≤ 2 ^ 64) : n.log2 < 1023 := by
  rcases n.eq_zero_or_pos with rfl | hn
  · decide
  · have : n.log2 < 65 := (Nat.log2_lt hn.ne').2 (by omega)
    omega

theorem ceil_natCast_div {m d : Nat} (hd : 0 < d) :
    ⌈(m : ℚ) / d⌉ = ((m + d - 1) / d : Nat) := by
  have hdiv := Nat.div_add_mod (m + d - 1) d
  have hmod := Nat.mod_lt (m + d - 1) hd
  have hd' : (0 : ℚ) < d := Nat.cast_pos.2 hd
  rw [Int.ceil_eq_iff, Int.cast_natCast, lt_div_iff₀ hd', div_le_iff₀ hd', sub_mul, one_mul,
    sub_lt_iff_lt_add]
  rw [mul_comm] at hdiv
  constructor
  · exact_mod_cast (by omega : (m + d - 1) / d * d < m + d)
  · exact_mod_cast (by omega : m ≤ (m + d - 1) / d * d)

/-- A way of picking an integer next to a magnitude picks one next to the value. -/
theorem value?_toIntegral {choose : Bool → Nat → Nat → Nat} {pick : ℚ → Int} {s : Bool} {m : Nat}
    {e : Int} (hm : m ≤ fullMantissa) (hint : ∀ n : Int, pick n = n)
    (hchoose : ∀ d, 0 < d → choose s m d ≤ m ∧ signed s (choose s m d) = pick (signed s (m / d))) :
    (toIntegral choose (.finite s m e)).value? = some (pick (signed s (m * 2 ^ e)) : ℚ) := by
  rw [toIntegral]
  split_ifs with he
  · lift e to Nat using he
    obtain ⟨n, hn⟩ : ∃ n : Int, signed s (m * 2 ^ (e : Int)) = n := by
      cases s with
      | false => exact ⟨m * 2 ^ e, by simp [signed]⟩
      | true => exact ⟨-(m * 2 ^ e), by simp [signed]⟩
    rw [value?, hn, hint]
  · obtain ⟨k, rfl⟩ : ∃ k : Nat, e = -k := ⟨(-e).toNat, by omega⟩
    obtain ⟨hle, hpick⟩ := hchoose (2 ^ k) (by positivity)
    have hfull : fullMantissa = 2 ^ 53 - 1 := by decide
    have hsmall : choose s m (2 ^ k) ≤ 2 ^ 53 := by omega
    rw [neg_neg, Int.toNat_natCast, Nat.one_shiftLeft,
      value?_ofRatio_one _ (log2_lt_of_le (by omega)), nearestNat_eq_self hsmall, hpick, zpow_neg,
      zpow_natCast, div_eq_mul_inv]
    push_cast
    rfl

theorem add_sub_one_div_le (m : Nat) {d : Nat} (hd : 0 < d) : (m + d - 1) / d ≤ m := by
  obtain ⟨b, rfl⟩ : ∃ b, d = b + 1 := ⟨d - 1, by omega⟩
  rcases m with _ | a
  · simp
  · have hproduct : (b + 1) * (a + 1) = b * a + (a + b + 1) := by ring
    exact Nat.div_le_of_le_mul (by omega)

theorem value?_floor {s : Bool} {m : Nat} {e : Int} (hm : m ≤ fullMantissa) :
    (floor (.finite s m e)).value? = some (⌊signed s (m * 2 ^ e)⌋ : ℚ) := by
  refine value?_toIntegral hm Int.floor_intCast fun d hd => ?_
  cases s with
  | false =>
    refine ⟨Nat.div_le_self m d, ?_⟩
    simp only [signed, Bool.false_eq_true, ↓reduceIte, Rat.floor_natCast_div_natCast,
      ← Int.natCast_ediv, Int.cast_natCast]
  | true =>
    refine ⟨add_sub_one_div_le m hd, ?_⟩
    simp only [signed, ↓reduceIte, Int.floor_neg, ceil_natCast_div hd, Int.cast_neg,
      Int.cast_natCast]

theorem value?_ceil {s : Bool} {m : Nat} {e : Int} (hm : m ≤ fullMantissa) :
    (ceil (.finite s m e)).value? = some (⌈signed s (m * 2 ^ e)⌉ : ℚ) := by
  refine value?_toIntegral hm Int.ceil_intCast fun d hd => ?_
  cases s with
  | false =>
    refine ⟨add_sub_one_div_le m hd, ?_⟩
    simp only [signed, Bool.false_eq_true, ↓reduceIte, ceil_natCast_div hd, Int.cast_natCast]
  | true =>
    refine ⟨Nat.div_le_self m d, ?_⟩
    simp only [signed, ↓reduceIte, Int.ceil_neg, Rat.floor_natCast_div_natCast,
      ← Int.natCast_ediv, Int.cast_neg, Int.cast_natCast]

/-- A double near an integer is an integer, which neither `floor` nor `ceil` moves. -/
theorem value?_floor_ofInt {n : Int} (h : n.natAbs.log2 < 1023) :
    (ofInt n).floor.value? = some (nearest n : ℚ) := by
  have hvalue := value?_ofInt h
  obtain ⟨s, m, e, hfinite, hq⟩ := exists_finite_of_value? hvalue
  rw [hfinite, value?_floor (isStandard_of_ofRatio one_pos hfinite).mantissa, ← hq,
    Int.floor_intCast]

theorem value?_ceil_ofInt {n : Int} (h : n.natAbs.log2 < 1023) :
    (ofInt n).ceil.value? = some (nearest n : ℚ) := by
  have hvalue := value?_ofInt h
  obtain ⟨s, m, e, hfinite, hq⟩ := exists_finite_of_value? hvalue
  rw [hfinite, value?_ceil (isStandard_of_ofRatio one_pos hfinite).mantissa, ← hq,
    Int.ceil_intCast]

end JsonTemplate.Binary64
