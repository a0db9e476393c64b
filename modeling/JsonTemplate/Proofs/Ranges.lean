import JsonTemplate.Proofs.Bounds

/-!
# Ranges of decimals

The bounds of a decimal are finite, not crossed, and a finite distance apart. That does not do: the
distance is divided by the largest fraction that is drawn, and the bounds of an amount of money are
turned into cents first. So a range is too wide if its width is among the two largest doubles
(`TooWide`), and too wide in cents if but one of its ends is then an infinity (`TooWideInCents`).
-/

namespace JsonTemplate

namespace Binary64

theorem le_of_not_lt {x y : Binary64} (hx : x ≠ .nan) (hy : y ≠ .nan) (h : y.lt x = false) :
    x.le y = true := by
  cases x with
  | nan => exact absurd rfl hx
  | infinity s =>
    cases y with
    | nan => exact absurd rfl hy
    | infinity t => cases s <;> cases t <;> first | rfl | cases h
    | finite t n f => cases s <;> first | rfl | cases h
  | finite s m e =>
    cases y with
    | nan => exact absurd rfl hy
    | infinity t => cases t <;> first | rfl | cases h
    | finite t n f =>
      have hx : (finite s m e).value? = some _ := rfl
      have hy : (finite t n f).value? = some _ := rfl
      rw [le_iff hx hy]
      rw [Bool.eq_false_iff, ne_eq, lt_iff hy hx, not_lt] at h
      exact h

theorem same_iff {x y : Binary64} {q r : ℚ} (hx : x.value? = some q) (hy : y.value? = some r) :
    x.same y = true ↔ q = r := by
  obtain ⟨a, b, hcompare, -, heq⟩ := compare?_eq hx hy
  rw [same, hcompare, beq_iff_eq, Option.some.injEq, compare_eq_iff_eq, heq]

theorem Denotes.ne_nan {x : Binary64} {q : ℚ} (h : x.Denotes q) : x ≠ .nan := by
  cases h
  exact nofun

end Binary64

namespace KeyStream

open Binary64

theorem denotes_greatestFraction : greatestFraction.Denotes (1 - 2 ^ (-52 : Int)) := by
  have hfinite : greatestFraction = .finite false (2 ^ 53 - 2) (-53) := by decide
  have hvalue : (1 - 2 ^ (-52 : Int) : ℚ)
      = signed false ((2 ^ 53 - 2 : Nat) * 2 ^ (-53 : Int)) := by
    norm_num [signed]
  rw [hfinite, hvalue]
  exact .mk ⟨by decide, by decide, by decide, .inl (by decide)⟩

/-- There is no scale for a range whose width is one of the two largest doubles. -/
theorem scaleOf?_eq_none_iff {x y : Binary64} {q r : ℚ} (hx : x.Denotes q) (hy : y.Denotes r)
    (hle : q ≤ r) (hlt : r - q < overflow) :
    scaleOf? x y = none ↔ (2 ^ 53 - 5 / 2) * topUnit ≤ r - q := by
  have hunit := topUnit_pos
  have hnonneg : 0 ≤ r - q := sub_nonneg.2 hle
  have hwidth := hy.sub hx
  obtain ⟨d, hd, -, hd0⟩ := hwidth.exists_denotes (by rwa [abs_of_nonneg hnonneg])
  have htop := hwidth.top_le_iff hnonneg hd
  have hfraction : (0 : ℚ) < 1 - 2 ^ (-52 : Int) := by norm_num
  have hscale := (hd.div denotes_greatestFraction hfraction.ne').isFinite_iff
  rw [abs_of_nonneg (div_nonneg (hd0 hnonneg) hfraction.le), div_lt_iff₀ hfraction] at hscale
  -- the least of the two largest doubles is the first one that the fraction lifts to infinity
  have hstep : overflow * (1 - 2 ^ (-52 : Int)) ≤ d ↔ (2 ^ 53 - 2) * topUnit ≤ d := by
    unfold overflow
    constructor
    · intro hge
      have hbelow : ((2 ^ 53 - 3 : Nat) : ℚ) * topUnit < d := by
        refine lt_of_lt_of_le ?_ hge
        rw [mul_right_comm]
        exact mul_lt_mul_of_pos_right (by norm_num) hunit
      have hnext := hd.succ_mul_le (by decide) hbelow
      norm_num at hnext ⊢
      exact hnext
    · refine fun hge => le_trans ?_ hge
      rw [mul_right_comm]
      exact mul_le_mul_of_nonneg_right (by norm_num) hunit.le
  have hhalf : (2 : ℚ) ^ 53 - 2 - 1 / 2 = 2 ^ 53 - 5 / 2 := by norm_num
  rw [hhalf] at htop
  rw [← htop, ← hstep, ← not_lt, ← hscale, scaleOf?]
  split <;> simp [*]

end KeyStream

namespace Generator

open Binary64 KeyStream

/-! ## The bounds asked for -/

/-- The options that there are; none without arguments. -/
def givenOptions? : List Json → Option Json.Fields
  | [] => some []
  | .object fields :: _ => some fields
  | _ => none

/-- The bounds that the arguments ask for, with what they denote. -/
structure Asks (args : List Json) (low high : Int) (min max : Binary64) (q r : ℚ) : Prop where
  options : ∃ fields, givenOptions? args = some fields
    ∧ min = numberOption fields "min" (.ofInt low) ∧ max = numberOption fields "max" (.ofInt high)
  min : min.Denotes q
  max : max.Denotes r

theorem exists_asks {args : List Json} (hfinite : FiniteNumbers args) {fields : Json.Fields}
    (h : givenOptions? args = some fields) {low high : Int} (hlow : low.natAbs ≤ 2 ^ 53)
    (hhigh : high.natAbs ≤ 2 ^ 53) :
    ∃ q r, Asks args low high (numberOption fields "min" (.ofInt low))
      (numberOption fields "max" (.ofInt high)) q r := by
  have hmin := denotes_ofInt hlow
  have hmax := denotes_ofInt hhigh
  unfold givenOptions? at h
  split at h
  · cases h
    exact ⟨_, _, ⟨_, rfl, rfl, rfl⟩, hmin, hmax⟩
  · cases h
    obtain ⟨q, hq⟩ := hfinite.numberOption "min" hmin
    obtain ⟨r, hr⟩ := hfinite.numberOption "max" hmax
    exact ⟨q, r, ⟨_, rfl, rfl, rfl⟩, hq, hr⟩
  · cases h

section Bounds

variable {args : List Json} {low high : Int} {min max : Binary64} {q r : ℚ} {reason : Prop}

theorem Asks.unique (h : Asks args low high min max q r) {min' max' : Binary64} {q' r' : ℚ}
    (h' : Asks args low high min' max' q' r') : min = min' ∧ max = max' ∧ q = q' ∧ r = r' := by
  obtain ⟨⟨fields, hfields, rfl, rfl⟩, hmin, hmax⟩ := h
  obtain ⟨⟨fields', hfields', rfl, rfl⟩, hmin', hmax'⟩ := h'
  obtain rfl := Option.some.inj (hfields.symm.trans hfields')
  exact ⟨rfl, rfl, hmin.unique hmin', hmax.unique hmax'⟩

theorem run_floatBounds {fields : Json.Fields} (h : givenOptions? args = some fields)
    (defaultMin defaultMax : Binary64) (s : KeyStream) :
    (floatBounds args defaultMin defaultMax).run.run s
      = let min := numberOption fields "min" defaultMin
        let max := numberOption fields "max" defaultMax
        (if !(min.isFinite && max.isFinite && (max - min).isFinite) then
          invalid ("range " ++ plain min ++ ".." ++ plain max ++ " is too wide")
        else if max.lt min then invalid ("max " ++ plain max ++ " is less than min " ++ plain min)
        else return (min, max) : Gen (Binary64 × Binary64)).run.run s := by
  unfold givenOptions? at h
  split at h
  · cases h
    rfl
  · cases h
    rfl
  · cases h

/-- Bounds that are not crossed, at a finite distance, are taken. -/
theorem Asks.run_of_le (h : Asks args low high min max q r) (hle : q ≤ r) (hlt : r - q < overflow)
    (s : KeyStream) :
    (floatBounds args (.ofInt low) (.ofInt high)).run.run s = .ok (.ok (min, max), s) := by
  obtain ⟨⟨fields, hfields, rfl, rfl⟩, hmin, hmax⟩ := h
  have hwidth := (hmax.sub hmin).isFinite_iff
  rw [abs_of_nonneg (sub_nonneg.2 hle)] at hwidth
  have hcrossed := (lt_iff hmax.value? hmin.value?).not.2 (not_lt.2 hle)
  rw [run_floatBounds hfields]
  simp only [hmin.isFinite, hmax.isFinite, hwidth.2 hlt, hcrossed, Bool.and_self, Bool.not_true,
    Bool.false_eq_true, if_false]
  rfl

/-- Other bounds are refused. -/
theorem Asks.run_of_not_le (h : Asks args low high min max q r)
    (hnot : ¬ (q ≤ r ∧ r - q < overflow)) (s : KeyStream) :
    ∃ e, (floatBounds args (.ofInt low) (.ofInt high)).run.run s = .ok (.error e, s) := by
  obtain ⟨⟨fields, hfields, rfl, rfl⟩, hmin, hmax⟩ := h
  have hwidth := (hmax.sub hmin).isFinite_iff
  have hcrossed := lt_iff hmax.value? hmin.value?
  rw [run_floatBounds hfields]
  dsimp only
  split
  · exact ⟨_, rfl⟩
  · rename_i hfinite
    split
    · exact ⟨_, rfl⟩
    · rename_i hlt
      rw [hcrossed, not_lt] at hlt
      simp only [hmin.isFinite, hmax.isFinite, Bool.true_and, Bool.not_eq_true', Bool.not_eq_false,
        hwidth, abs_of_nonneg (sub_nonneg.2 hlt)] at hfinite
      exact absurd ⟨hlt, hfinite⟩ hnot

theorem run_floatBounds_of_none (h : givenOptions? args = none) (defaultMin defaultMax : Binary64)
    (s : KeyStream) :
    ∃ e, (floatBounds args defaultMin defaultMax).run.run s = .ok (.error e, s) := by
  rcases args with _ | ⟨v, rest⟩
  · cases h
  · cases v with
    | object fields => cases h
    | null | bool _ | number _ | string _ | array _ => exact ⟨_, rfl⟩

theorem soundUnless_floatBounds (args : List Json) (defaultMin defaultMax : Binary64) :
    SoundUnless reason (floatBounds args defaultMin defaultMax) := by
  refine (soundUnless_options args).bind fun _ fields _ _ => ?_
  rcases fields with _ | fields
  all_goals
    dsimp only
    split
    · exact .invalid _
    · split
      · exact .invalid _
      · exact .pure _

/-- What is known of bounds that are taken. -/
theorem asks_of_run (hfinite : FiniteNumbers args) (hlow : low.natAbs ≤ 2 ^ 53)
    (hhigh : high.natAbs ≤ 2 ^ 53) {s s' : KeyStream}
    (hrun : (floatBounds args (.ofInt low) (.ofInt high)).run.run s = .ok (.ok (min, max), s')) :
    ∃ q r, Asks args low high min max q r ∧ q ≤ r ∧ r - q < overflow := by
  cases hfields : givenOptions? args with
  | none =>
    obtain ⟨e, he⟩ := run_floatBounds_of_none hfields (.ofInt low) (.ofInt high) s
    rw [he] at hrun
    cases hrun
  | some fields =>
    obtain ⟨q, r, hasks⟩ := exists_asks hfinite hfields hlow hhigh
    by_cases hle : q ≤ r ∧ r - q < overflow
    · rw [hasks.run_of_le hle.1 hle.2] at hrun
      cases hrun
      exact ⟨q, r, hasks, hle⟩
    · obtain ⟨e, he⟩ := hasks.run_of_not_le hle s
      rw [he] at hrun
      cases hrun

/-! ## Decimals -/

/-- The width of a range is finite, but one of the two largest doubles. -/
structure TooWide (q r : ℚ) : Prop where
  wide : (2 ^ 53 - 5 / 2) * topUnit ≤ r - q
  finite : r - q < overflow

theorem TooWide.lt {q r : ℚ} (h : TooWide q r) : q < r := by
  have hpos : 0 < (2 ^ 53 - 5 / 2) * topUnit := mul_pos (by norm_num) topUnit_pos
  exact sub_pos.1 (hpos.trans_le h.wide)

theorem soundUnless_floatBetween (hmin : min.Denotes q) (hmax : max.Denotes r) (hle : q ≤ r)
    (hlt : r - q < overflow) (hreason : TooWide q r → reason) :
    SoundUnless reason (floatBetween min max) :=
  .floatBetween ((le_iff hmin.value? hmax.value?).2 hle) fun _ hscale =>
    hreason ⟨(scaleOf?_eq_none_iff hmin hmax hle hlt).1 hscale, hlt⟩

/-- What makes a decimal of the bounds. -/
def decimal (places : Nat) (low high : Int) (args : List Json) : Gen Json := do
  let (min, max) ← floatBounds args (.ofInt low) (.ofInt high)
  decimalBetween places min max

theorem soundUnless_decimal (places : Nat) (hfinite : FiniteNumbers args)
    (hlow : low.natAbs ≤ 2 ^ 53) (hhigh : high.natAbs ≤ 2 ^ 53)
    (hreason : ∀ min max q r, Asks args low high min max q r → TooWide q r → reason) :
    SoundUnless reason (decimal places low high args) := by
  refine (soundUnless_floatBounds args _ _).bind fun s bounds s' hrun => ?_
  obtain ⟨min, max⟩ := bounds
  obtain ⟨q, r, hasks, hle, hlt⟩ := asks_of_run hfinite hlow hhigh hrun
  exact (soundUnless_floatBetween hasks.min hasks.max hle hlt (hreason _ _ _ _ hasks)).bind
    fun _ _ _ _ => .pure _

theorem refuses_floatBounds (args : List Json) (defaultMin defaultMax : Binary64) :
    Refuses (floatBounds args defaultMin defaultMax) :=
  (soundUnless_floatBounds args defaultMin defaultMax : SoundUnless False _).refuses

theorem refuses_decimal (places : Nat) (low high : Int) (args : List Json) :
    Refuses (decimal places low high args) :=
  (refuses_floatBounds args _ _).bind fun _ => (Refuses.floatBetween _ _).bind fun _ => .pure _

theorem run_decimal_of_tooWide (places : Nat) (h : Asks args low high min max q r)
    (hwide : TooWide q r) (s : KeyStream) :
    (decimal places low high args).run.run s = .error .endlessRange := by
  have hlt := hwide.lt
  have hsame := (same_iff h.min.value? h.max.value?).not.2 hlt.ne
  rw [decimal, run_bind, h.run_of_le hlt.le hwide.finite]
  dsimp only
  rw [decimalBetween, run_bind, run_floatBetween, if_neg hsame,
    (scaleOf?_eq_none_iff h.min h.max hlt.le hwide.finite).2 hwide.wide]

/-! ## Amounts -/

/-- The ends of a range in cents are not both within the doubles, and not the same infinity. -/
structure TooWideInCents (q r : ℚ) : Prop where
  le : q ≤ r
  finite : r - q < overflow
  ends : 100 * q ≤ -overflow ∧ -overflow < 100 * r ∨ 100 * q < overflow ∧ overflow ≤ 100 * r

/-- A bound moved to whole cents, with a slack. -/
def toCents (pick : Binary64 → Binary64) (slack x : Binary64) : Binary64 :=
  pick (x * .ofInt 100 + slack) / .ofInt 100

/-- A way of picking an integer next to a double keeps the finite doubles and the infinities. -/
structure Picks (pick : Binary64 → Binary64) : Prop where
  denotes : ∀ {x q}, x.Denotes q → ∃ n : ℚ, (pick x).Denotes n
  infinity : ∀ s, pick (.infinity s) = .infinity s

theorem picks_ceil : Picks .ceil :=
  ⟨fun h => ⟨_, h.ceil⟩, fun _ => rfl⟩

theorem picks_floor : Picks .floor :=
  ⟨fun h => ⟨_, h.floor⟩, fun _ => rfl⟩

theorem denotes_hundred : (ofInt 100).Denotes 100 := by
  exact_mod_cast denotes_ofInt (n := 100) (by decide)

theorem exists_denotes_centSlack : ∃ ε, centSlack.Denotes ε ∧ |ε| ≤ 1 := by
  have hrounded : Rounded (signed false ((1 : Nat) / (Nat.pow 10 9 : Nat))) centSlack :=
    .mk false 1 (by decide)
  have hvalue : signed false ((1 : Nat) / (Nat.pow 10 9 : Nat)) = 1 / 10 ^ 9 := by
    norm_num [signed]
  have hsmall : |(1 : ℚ) / 10 ^ 9| = 1 / 10 ^ 9 := abs_of_nonneg (by norm_num)
  have hunit := topUnit_pos
  rw [hvalue] at hrounded
  obtain ⟨ε, hε, hle, -⟩ := hrounded.exists_denotes (lt_overflow (by rw [hsmall]; linarith))
  rw [hsmall] at hle
  exact ⟨ε, hε, hle.trans (by norm_num)⟩

section Cents

variable {pick : Binary64 → Binary64} (hpick : Picks pick) {slack x : Binary64} {ε q : ℚ}
  (hslack : slack.Denotes ε) (hx : x.Denotes q)
include hpick hslack hx

/-- Whole cents of a bound that is not too large lie far from the largest doubles. -/
theorem exists_denotes_toCents (hε : |ε| ≤ 1) (hlt : |100 * q| < overflow) :
    ∃ l, (toCents pick slack x).Denotes l ∧ |l| ≤ 2 ^ 53 / 50 * topUnit := by
  have hunit := topUnit_pos
  have hproduct := hx.mul denotes_hundred
  rw [mul_comm] at hproduct
  obtain ⟨a, ha, -⟩ := hproduct.exists_denotes hlt
  have hsum : |a + ε| < overflow :=
    lt_overflow ((abs_add_le a ε).trans (add_le_add ha.abs_le hε))
  obtain ⟨b, hb, -⟩ := (ha.add hslack).exists_denotes hsum
  obtain ⟨n, hn⟩ := hpick.denotes hb
  have hquotient : |n / 100| ≤ (2 ^ 53 - 1) * topUnit / 100 := by
    rw [abs_div, abs_of_pos (by norm_num : (0 : ℚ) < 100)]
    exact div_le_div_of_nonneg_right hn.abs_le (by norm_num)
  obtain ⟨l, hl, hle, -⟩ := (hn.div denotes_hundred (by norm_num)).exists_denotes
    (lt_overflow (hquotient.trans (by linarith)))
  exact ⟨l, hl, hle.trans (by linarith)⟩

theorem toCents_eq_infinity (hle : overflow ≤ |100 * q|) :
    toCents pick slack x = .infinity (decide (100 * q < 0)) := by
  have hproduct := hx.mul denotes_hundred
  rw [mul_comm] at hproduct
  have hsum : x * ofInt 100 + slack = .infinity (decide (100 * q < 0)) := by
    rw [hproduct.eq_infinity hle]
    cases hslack
    rfl
  have hhundred : ofInt 100 = .finite false 0x19000000000000 (-46) := by decide
  rw [toCents, hsum, hpick.infinity, hhundred]
  cases decide (100 * q < 0) <;> rfl

theorem toCents_ne_nan (hε : |ε| ≤ 1) : toCents pick slack x ≠ .nan := by
  rcases lt_or_ge |100 * q| overflow with hlt | hle
  · obtain ⟨l, hl, -⟩ := exists_denotes_toCents hpick hslack hx hε hlt
    exact hl.ne_nan
  · rw [toCents_eq_infinity hpick hslack hx hle]
    exact nofun

end Cents

theorem scaleOf?_ne_none {x y : Binary64} {l h : ℚ} (hx : x.Denotes l) (hy : y.Denotes h)
    (hl : |l| ≤ 2 ^ 53 / 50 * topUnit) (hh : |h| ≤ 2 ^ 53 / 50 * topUnit) :
    scaleOf? x y ≠ none := by
  have hunit := topUnit_pos
  have hdistance : |h - l| ≤ 2 ^ 53 / 25 * topUnit :=
    (abs_sub h l).trans (by linarith)
  obtain ⟨d, hd, hle, -⟩ := (hy.sub hx).exists_denotes (lt_overflow (by linarith))
  obtain ⟨γ, hγ, hhalf⟩ : ∃ γ, greatestFraction.Denotes γ ∧ 1 / 2 ≤ γ :=
    ⟨_, denotes_greatestFraction, by norm_num⟩
  have hpos : 0 < γ := by linarith
  have hquotient : |d / γ| ≤ 2 ^ 55 / 25 * topUnit := by
    have hscaled : 2 ^ 55 / 25 * topUnit * (1 / 2) ≤ 2 ^ 55 / 25 * topUnit * γ :=
      mul_le_mul_of_nonneg_left hhalf (by linarith)
    rw [abs_div, abs_of_pos hpos, div_le_iff₀ hpos]
    linarith
  have hfinite : ((y - x) / greatestFraction).isFinite = true :=
    (hd.div hγ hpos.ne').isFinite_iff.2 (lt_overflow (by linarith))
  rw [KeyStream.scaleOf?]
  simp [hfinite]

/-- The ends of a range are not both finite, and not the same infinity. -/
inductive Endless : Binary64 → Binary64 → Prop
  | below {y : Binary64} {h : ℚ} (hy : y.Denotes h) : Endless (.infinity true) y
  | both : Endless (.infinity true) (.infinity false)
  | above {x : Binary64} {l : ℚ} (hx : x.Denotes l) : Endless x (.infinity false)

theorem Endless.spec {x y : Binary64} (h : Endless x y) :
    y.lt x = false ∧ x.same y = false ∧ scaleOf? x y = none := by
  cases h with
  | below hy =>
    cases hy
    exact ⟨rfl, rfl, rfl⟩
  | both => exact ⟨rfl, rfl, rfl⟩
  | above hx =>
    cases hx
    exact ⟨rfl, rfl, rfl⟩

/-- The ends of a range of amounts, and when they are too far apart. -/
theorem endless_toCents {x y slack : Binary64} {ε : ℚ} (hslack : slack.Denotes ε) (hε : |ε| ≤ 1)
    (hx : x.Denotes q) (hy : y.Denotes r) (h : TooWideInCents q r) :
    Endless (toCents .ceil slack.neg x) (toCents .floor slack y) := by
  have hε' : |-ε| ≤ 1 := by rwa [abs_neg]
  have hpos := overflow_pos
  rcases h.ends with ⟨hq, hr⟩ | ⟨hq, hr⟩
  · have hneg : decide (100 * q < 0) = true := decide_eq_true (by linarith)
    rw [toCents_eq_infinity picks_ceil hslack.neg hx (le_abs.2 (.inr (by linarith))), hneg]
    rcases lt_or_ge (100 * r) overflow with hlt | hge
    · obtain ⟨l, hl, -⟩ := exists_denotes_toCents picks_floor hslack hy hε (abs_lt.2 ⟨hr, hlt⟩)
      exact .below hl
    · have hnonneg : decide (100 * r < 0) = false := decide_eq_false (by linarith)
      rw [toCents_eq_infinity picks_floor hslack hy (hge.trans (le_abs_self _)), hnonneg]
      exact .both
  · have hnonneg : decide (100 * r < 0) = false := decide_eq_false (by linarith)
    rw [toCents_eq_infinity picks_floor hslack hy (hr.trans (le_abs_self _)), hnonneg]
    rcases lt_or_ge (-overflow) (100 * q) with hlt | hge
    · obtain ⟨l, hl, -⟩ := exists_denotes_toCents picks_ceil hslack.neg hx hε' (abs_lt.2 ⟨hlt, hq⟩)
      exact .above hl
    · have hneg : decide (100 * q < 0) = true := decide_eq_true (by linarith)
      rw [toCents_eq_infinity picks_ceil hslack.neg hx (le_abs.2 (.inr (by linarith))), hneg]
      exact .both

/-- Otherwise the ends are the same infinity, or there is a scale. -/
theorem tooWideInCents_of_scaleOf? {x y slack : Binary64} {ε : ℚ} (hslack : slack.Denotes ε)
    (hε : |ε| ≤ 1) (hx : x.Denotes q) (hy : y.Denotes r) (hle : q ≤ r) (hlt : r - q < overflow)
    (hsame : (toCents .ceil slack.neg x).same (toCents .floor slack y) = false)
    (hscale : scaleOf? (toCents .ceil slack.neg x) (toCents .floor slack y) = none) :
    TooWideInCents q r := by
  have hε' : |-ε| ≤ 1 := by rwa [abs_neg]
  refine ⟨hle, hlt, ?_⟩
  rcases lt_or_ge |100 * q| overflow with hq | hq
  · obtain ⟨l, hl, hlbound⟩ := exists_denotes_toCents picks_ceil hslack.neg hx hε' hq
    rcases lt_or_ge |100 * r| overflow with hr | hr
    · obtain ⟨h, hh, hhbound⟩ := exists_denotes_toCents picks_floor hslack hy hε hr
      exact absurd hscale (scaleOf?_ne_none hl hh hlbound hhbound)
    · rw [abs_lt] at hq
      rcases le_abs.1 hr with hr | hr
      · exact .inr ⟨hq.2, hr⟩
      · linarith
  · -- unless the ends differ, both are the same infinity
    have hpos := overflow_pos
    rcases le_abs.1 hq with hge | hge
    · have hr : overflow ≤ 100 * r := by linarith
      rw [toCents_eq_infinity picks_ceil hslack.neg hx hq,
        toCents_eq_infinity picks_floor hslack hy (hr.trans (le_abs_self _)),
        decide_eq_false (by linarith), decide_eq_false (by linarith)] at hsame
      cases hsame
    · rcases lt_or_ge (-overflow) (100 * r) with hr | hr
      · exact .inl ⟨by linarith, hr⟩
      · rw [toCents_eq_infinity picks_ceil hslack.neg hx hq,
          toCents_eq_infinity picks_floor hslack hy (le_abs.2 (.inr (by linarith))),
          decide_eq_true (by linarith), decide_eq_true (by linarith)] at hsame
        cases hsame

theorem soundUnless_amount (hfinite : FiniteNumbers args) (hlow : low.natAbs ≤ 2 ^ 53)
    (hreason : ∀ min max q r, Asks args low 1000 min max q r → TooWideInCents q r → reason)
    (now : Calendar.Instant) : SoundUnless reason (amount low now args) := by
  obtain ⟨ε, hslack, hε⟩ := exists_denotes_centSlack
  refine (soundUnless_floatBounds args _ _).bind fun s bounds s' hrun => ?_
  obtain ⟨min, max⟩ := bounds
  obtain ⟨q, r, hasks, hle, hlt⟩ := asks_of_run hfinite hlow (by decide) hrun
  change SoundUnless reason
    (if (toCents .floor centSlack max).lt (toCents .ceil centSlack.neg min) then invalid _
    else floatBetween (toCents .ceil centSlack.neg min) (toCents .floor centSlack max) >>= _)
  split
  · exact .invalid _
  · rename_i hcrossed
    refine (SoundUnless.floatBetween ?_ fun hsame hscale => ?_).bind fun _ _ _ _ => .pure _
    · refine le_of_not_lt ?_ ?_ (Bool.not_eq_true _ ▸ hcrossed)
      · exact toCents_ne_nan picks_ceil hslack.neg hasks.min (by rwa [abs_neg])
      · exact toCents_ne_nan picks_floor hslack hasks.max hε
    · exact hreason _ _ _ _ hasks
        (tooWideInCents_of_scaleOf? hslack hε hasks.min hasks.max hle hlt hsame hscale)

theorem refuses_amount (low : Int) (now : Calendar.Instant) (args : List Json) :
    Refuses (amount low now args) := by
  refine (refuses_floatBounds args _ _).bind fun bounds => ?_
  dsimp only
  split
  · exact .invalid _
  · exact (Refuses.floatBetween _ _).bind fun _ => .pure _

theorem run_amount_of_tooWide (h : Asks args low 1000 min max q r) (hwide : TooWideInCents q r)
    (now : Calendar.Instant) (s : KeyStream) :
    (amount low now args).run.run s = .error .endlessRange := by
  obtain ⟨ε, hslack, hε⟩ := exists_denotes_centSlack
  obtain ⟨hcrossed, hsame, hscale⟩ := (endless_toCents hslack hε h.min h.max hwide).spec
  rw [amount, run_bind, h.run_of_le hwide.le hwide.finite]
  change (if (toCents .floor centSlack max).lt (toCents .ceil centSlack.neg min) then invalid _
    else floatBetween (toCents .ceil centSlack.neg min) (toCents .floor centSlack max) >>= _ :
      Gen Json).run.run s = _
  rw [if_neg (by rw [hcrossed]; decide), run_bind, run_floatBetween, if_neg (by rw [hsame]; decide),
    hscale]

end Bounds

end Generator

end JsonTemplate
