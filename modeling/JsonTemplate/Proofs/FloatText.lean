import JsonTemplate.Proofs.ShortestDecimals

/-!
# Texts of doubles

The text of a finite double is read as that double (`Json.toBinary64_floatText`). Every layout of
a decimal is read as a numeral of the same value (`Numeral.IsReadAs`), and a numeral in the interval
around a double is that double (`Numeral.toBinary64_eq_finite`).
-/

namespace JsonTemplate

open Text

namespace Text

/-- Noughts before digits do not count. -/
theorem natOfDigits_replicate_append (n : Nat) (ds : List Char) :
    natOfDigits (List.replicate n '0' ++ ds) = natOfDigits ds := by
  induction n with
  | zero => rfl
  | succ n ih =>
    rw [List.replicate_succ, List.cons_append]
    exact ih

/-- Every nought after digits multiplies them by ten. -/
theorem natOfDigits_append_replicate (ds : List Char) (n : Nat) :
    natOfDigits (ds ++ List.replicate n '0') = natOfDigits ds * 10 ^ n := by
  induction n with
  | zero => rw [List.replicate_zero, List.append_nil, pow_zero, mul_one]
  | succ n ih =>
    rw [List.replicate_succ', ← List.append_assoc, natOfDigits, List.foldl_append, ← natOfDigits,
      ih]
    change 10 * (natOfDigits ds * 10 ^ n) + 0 = _
    rw [pow_succ, add_zero, mul_comm, mul_assoc]

end Text

namespace Numeral

/-- What a numeral denotes, without its sign. -/
def magnitude (n : Numeral) : ℚ :=
  (Decimal.mk n.digits n.exponent).value

/-! ## Numerals near a double -/

/-- A decimal is a fraction of natural numbers. -/
theorem exists_ofRatio_eq_ofDecimal (negative : Bool) (n : Nat) (e : Int) :
    ∃ num den : Nat, 0 < den ∧ (num / den : ℚ) = n * 10 ^ e ∧
      Binary64.ofDecimal negative n e = .ofRatio negative num den := by
  unfold Binary64.ofDecimal
  split
  · lift e to Nat using ‹_›
    refine ⟨_, _, Nat.one_pos, ?_, rfl⟩
    simp
  · obtain ⟨k, rfl⟩ : ∃ k : Nat, e = -k := ⟨(-e).toNat, by omega⟩
    refine ⟨_, _, ?_, ?_, rfl⟩
    · simp
    · simp [div_eq_mul_inv]

theorem isStandard_of_toBinary64 {n : Numeral} {s : Bool} {m : Nat} {e : Int}
    (h : n.toBinary64 = .finite s m e) : Binary64.IsStandard m e := by
  rw [toBinary64] at h
  split at h
  · cases h
    exact Binary64.isStandard_zero
  · split at h
    · cases h
    · obtain ⟨num, den, hden, -, hratio⟩ :=
        exists_ofRatio_eq_ofDecimal n.negative n.digits n.exponent
      exact Binary64.isStandard_of_ofRatio hden (hratio.symm.trans h)

/-- The power of ten above a numeral, and the one below. -/
theorem magnitude_bounds {n : Numeral} (h : n.digits ≠ 0) :
    10 ^ ((natText n.digits).length + n.exponent - 1) ≤ n.magnitude ∧
      n.magnitude < 10 ^ ((natText n.digits).length + n.exponent) := by
  obtain ⟨hlow, hhigh⟩ := pow_length_natText h
  have hlength : 0 < (natText n.digits).length := Nat.length_toDigits_pos
  have hpower : (0 : ℚ) < 10 ^ n.exponent := by positivity
  have hten : (10 : ℚ) ≠ 0 := by norm_num
  constructor
  · have hsize : (natText n.digits).length + n.exponent - 1
        = ((natText n.digits).length - 1 : Nat) + n.exponent := by omega
    rw [hsize, zpow_add₀ hten, zpow_natCast]
    refine mul_le_mul_of_nonneg_right ?_ hpower.le
    exact_mod_cast hlow
  · rw [zpow_add₀ hten, zpow_natCast]
    refine mul_lt_mul_of_pos_right ?_ hpower
    exact_mod_cast hhigh

/-- A numeral near a double is read as it. -/
theorem toBinary64_eq_finite {n : Numeral} {m : Nat} {e : Int} (hm : 0 < m)
    (hs : Binary64.IsStandard m e) (hn : (Decimal.Interval.around m e).Holds n.magnitude) :
    n.toBinary64 = .finite n.negative m e := by
  have hdigits : n.digits ≠ 0 := by
    intro h
    have hpos := Binary64.pos_of_holds hm hn
    simp [magnitude, Decimal.value, h] at hpos
  obtain ⟨hlow, hhigh⟩ := magnitude_bounds hdigits
  obtain ⟨hleast, hgreatest⟩ := Binary64.range_of_holds hm hn hs
  have hsmall : ¬ (natText n.digits).length + n.exponent < -330 := by
    intro hsize
    have htiny : (10 : ℚ) ^ (-330 : Int) < 2 ^ (-1075 : Int) := by
      rw [zpow_neg, zpow_neg, inv_lt_inv₀ (by positivity) (by positivity)]
      exact_mod_cast (by decide +kernel : 2 ^ 1075 < 10 ^ 330)
    have hpower := zpow_le_zpow_right₀ (by norm_num : (1 : ℚ) ≤ 10) hsize.le
    exact (hleast.trans_lt (hhigh.trans_le hpower)).not_gt htiny
  have hlarge : ¬ 310 < (natText n.digits).length + n.exponent := by
    intro hsize
    have hhuge : (2 : ℚ) ^ (1024 : Int) < 10 ^ (310 : Int) := by
      exact_mod_cast (by decide +kernel : 2 ^ 1024 < 10 ^ 310)
    have hpower := zpow_le_zpow_right₀ (by norm_num : (1 : ℚ) ≤ 10) (Int.le_sub_one_of_lt hsize)
    exact ((hpower.trans hlow).trans_lt hgreatest).not_gt hhuge
  rw [toBinary64, if_neg (not_or.2 ⟨hdigits, hsmall⟩), if_neg hlarge]
  obtain ⟨num, den, hden, hvalue, hratio⟩ :=
    exists_ofRatio_eq_ofDecimal n.negative n.digits n.exponent
  rw [hratio]
  refine Binary64.ofRatio_eq_finite hden hm hs ?_
  rwa [hvalue]

/-! ## Reading the layouts -/

/-- A text is read as a numeral of a sign and a magnitude. -/
def IsReadAs (t : List Char) (s : Bool) (v : ℚ) : Prop :=
  ∃ n : Numeral, read? t = some n ∧ n.negative = s ∧ n.magnitude = v

/-- A point before digits. -/
def fractionText (ds : List Char) : List Char :=
  if ds = [] then [] else '.' :: ds

/-- Digits are taken off a text up to the first character that is none. -/
theorem takeWhile_isDigit {ds rest : List Char} (hds : ∀ c ∈ ds, c.isDigit = true)
    (hrest : ∀ c ∈ rest.head?, c.isDigit = false) :
    (ds ++ rest).takeWhile Char.isDigit = ds ∧ (ds ++ rest).dropWhile Char.isDigit = rest := by
  rw [List.takeWhile_append_of_pos hds, List.dropWhile_append_of_pos hds]
  cases rest with
  | nil => simp
  | cons c rest => simp [hrest c rfl]

theorem splitSign_signed {c : Char} (hc : c.isDigit = true) (s : Bool) (t : List Char) :
    splitSign (Decimal.signed s (c :: t)) = (s, c :: t) := by
  cases s with
  | false => exact splitSign_of_isDigit hc t
  | true => rfl

theorem splitFraction_append {fraction rest : List Char}
    (hfraction : ∀ c ∈ fraction, c.isDigit = true)
    (hrest : ∀ c ∈ rest.head?, c.isDigit = false ∧ c ≠ '.') :
    splitFraction (fractionText fraction ++ rest) = (fraction, rest) := by
  unfold fractionText
  split
  · rename_i hnil
    rw [hnil, List.nil_append, splitFraction]
    rintro t rfl
    exact (hrest '.' rfl).2 rfl
  · obtain ⟨htake, hdrop⟩ := takeWhile_isDigit hfraction fun c hc => (hrest c hc).1
    rw [List.cons_append, splitFraction, htake, hdrop]

/-- The exponent is written with its sign. -/
theorem readExponent?_written (x : Int) :
    readExponent? ('e' :: (if x < 0 then '-' else '+') :: natText x.natAbs) = some x := by
  have hsplit : splitSign ((if x < 0 then '-' else '+') :: natText x.natAbs)
      = (decide (x < 0), natText x.natAbs) := by
    split
    · rw [decide_eq_true ‹_›]
      rfl
    · rw [decide_eq_false ‹_›]
      rfl
  rw [readExponent?, if_pos (.inl rfl), hsplit]
  simp only [readNat?_natText, Option.map_some, applySign_natAbs]

/-- Digits, a point before more digits, and an exponent. -/
theorem isReadAs_signed (s : Bool) {whole fraction rest : List Char} {x : Int} (hne : whole ≠ [])
    (hwhole : ∀ c ∈ whole, c.isDigit = true) (hfraction : ∀ c ∈ fraction, c.isDigit = true)
    (hrest : ∀ c ∈ rest.head?, c.isDigit = false ∧ c ≠ '.') (hx : readExponent? rest = some x) :
    IsReadAs (Decimal.signed s (whole ++ fractionText fraction ++ rest)) s
      (natOfDigits (whole ++ fraction) * 10 ^ (x - fraction.length)) := by
  refine ⟨⟨s, natOfDigits (whole ++ fraction), x - fraction.length⟩, ?_, rfl, rfl⟩
  have hstop : ∀ c ∈ (fractionText fraction ++ rest).head?, c.isDigit = false := by
    unfold fractionText
    split
    · exact fun c hc => (hrest c hc).1
    · rintro c ⟨⟩
      rfl
  obtain ⟨htake, hdrop⟩ := takeWhile_isDigit hwhole hstop
  rw [List.append_assoc]
  obtain ⟨c, t, rfl⟩ := List.exists_cons_of_ne_nil hne
  have hsign := splitSign_signed (hwhole c List.mem_cons_self) s
    (t ++ (fractionText fraction ++ rest))
  rw [← List.cons_append] at hsign
  simp only [read?, hsign, htake, hdrop, splitFraction_append hfraction hrest, hx]
  rw [if_neg fun h => hne h.1]
  rfl

/-- Digits on both sides of a point. -/
theorem isReadAs_point (s : Bool) {whole fraction : List Char} (hne : whole ≠ [])
    (hne' : fraction ≠ []) (hwhole : ∀ c ∈ whole, c.isDigit = true)
    (hfraction : ∀ c ∈ fraction, c.isDigit = true) :
    IsReadAs (Decimal.signed s (whole ++ '.' :: fraction)) s
      (natOfDigits (whole ++ fraction) * 10 ^ (-(fraction.length : Int))) := by
  have hexp : readExponent? [] = some 0 := rfl
  have hread := isReadAs_signed s hne hwhole hfraction (by simp) hexp
  rwa [fractionText, if_neg hne', List.append_nil, zero_sub] at hread

end Numeral

namespace Decimal

open Numeral

theorem isDigit_of_mem_noughts {n : Nat} : ∀ c ∈ List.replicate n '0', c.isDigit = true := by
  intro c hc
  rw [List.eq_of_mem_replicate hc]
  rfl

/-- The point stands among the digits or before them. -/
theorem isReadAs_positional (s : Bool) {d : Decimal} (h : d.exponent < 0) :
    IsReadAs (signed s d.positional) s d.value := by
  obtain ⟨k, hk⟩ : ∃ k : Nat, d.exponent = -k := ⟨(-d.exponent).toNat, by omega⟩
  have hdigits : ∀ c ∈ natText d.digits, c.isDigit = true := fun c => isDigit_of_mem_natText
  have hvalue : d.value = natOfDigits (natText d.digits) * 10 ^ (-(k : Int)) := by
    rw [value, natOfDigits_natText, hk]
  have hplaces : (-d.exponent).toNat = k := by omega
  rw [positional, if_neg (not_le.2 h), hplaces, hvalue]
  dsimp only
  generalize natText d.digits = ds at hdigits ⊢
  split
  · rename_i hlt
    have hlength : (ds.drop (ds.length - k)).length = k := by
      rw [List.length_drop]
      omega
    have hwhole : ds.take (ds.length - k) ≠ [] :=
      List.ne_nil_of_length_pos (by rw [List.length_take]; omega)
    have hfraction : ds.drop (ds.length - k) ≠ [] := List.ne_nil_of_length_pos (by omega)
    have hread := isReadAs_point s hwhole hfraction
      (fun c hc => hdigits c (List.mem_of_mem_take hc))
      (fun c hc => hdigits c (List.mem_of_mem_drop hc))
    rwa [List.take_append_drop, hlength] at hread
  · rename_i hle
    have hlength : (List.replicate (k - ds.length) '0' ++ ds).length = k := by
      rw [List.length_append, List.length_replicate]
      omega
    have hfraction : List.replicate (k - ds.length) '0' ++ ds ≠ [] :=
      List.ne_nil_of_length_pos (by omega)
    have hread := isReadAs_point s (List.cons_ne_nil '0' []) hfraction
      (List.forall_mem_singleton.2 rfl)
      (List.forall_mem_append.2 ⟨isDigit_of_mem_noughts, hdigits⟩)
    have hnoughts : natOfDigits (['0'] ++ (List.replicate (k - ds.length) '0' ++ ds))
        = natOfDigits ds := natOfDigits_replicate_append _ ds
    rwa [hnoughts, hlength] at hread

theorem isReadAs_integral (s : Bool) {d : Decimal} (h : 0 ≤ d.exponent) :
    IsReadAs (signed s (d.positional ++ ['.', '0'])) s d.value := by
  obtain ⟨k, hk⟩ : ∃ k : Nat, d.exponent = k := ⟨d.exponent.toNat, by omega⟩
  have hplaces : d.exponent.toNat = k := by omega
  have hdigits : ∀ c ∈ natText d.digits ++ List.replicate k '0', c.isDigit = true :=
    List.forall_mem_append.2 ⟨fun c => isDigit_of_mem_natText, isDigit_of_mem_noughts⟩
  have hne : natText d.digits ++ List.replicate k '0' ≠ [] :=
    List.append_ne_nil_of_left_ne_nil (natText_ne_nil _) _
  have hread := isReadAs_point s hne (List.cons_ne_nil '0' []) hdigits
    (List.forall_mem_singleton.2 rfl)
  have hnoughts : natOfDigits (natText d.digits ++ List.replicate k '0' ++ ['0'])
      = d.digits * 10 ^ (k + 1) := by
    rw [List.append_assoc, ← List.replicate_succ', natOfDigits_append_replicate,
      natOfDigits_natText]
  have hvalue : ((d.digits * 10 ^ (k + 1) : Nat) : ℚ) * 10 ^ (-(['0'].length : Int))
      = d.value := by
    rw [value, hk, zpow_natCast]
    push_cast
    rw [List.length_singleton, Nat.cast_one, zpow_neg_one, pow_succ]
    field_simp
  rw [hnoughts, hvalue] at hread
  rwa [positional, if_pos h, hplaces]

/-- The exponent counts from the first digit. -/
theorem isReadAs_scientific (s : Bool) (d : Decimal) :
    IsReadAs (signed s d.scientific) s d.value := by
  rw [scientific]
  split
  · rename_i hnil
    exact absurd hnil (natText_ne_nil _)
  · rename_i lead rest hd
    dsimp only
    have hdigits : ∀ c ∈ lead :: rest, c.isDigit = true := by
      rw [← hd]
      exact fun c => isDigit_of_mem_natText
    rw [List.forall_mem_cons] at hdigits
    generalize hx : d.exponent + rest.length = x
    have hexp : readExponent? ('e' :: (if x < 0 then '-' else '+') :: natText x.natAbs)
        = some x := readExponent?_written x
    have hread := isReadAs_signed s (List.cons_ne_nil lead [])
      (List.forall_mem_singleton.2 hdigits.1) hdigits.2 (by simp) hexp
    have hvalue : (natOfDigits ([lead] ++ rest) : ℚ) * 10 ^ (x - rest.length) = d.value := by
      rw [List.singleton_append, ← hd, natOfDigits_natText, ← hx, add_sub_cancel_right, value]
    rwa [hvalue] at hread

end Decimal

namespace Json

/-- The text of a double is read as the double. -/
theorem toBinary64_floatText {s : Bool} {m : Nat} {e : Int} (h : Binary64.IsStandard m e) :
    (Numeral.read? (floatText (.finite s m e))).map Numeral.toBinary64 = some (.finite s m e) := by
  rw [floatText]
  split
  · rename_i hm
    have hleast : e = Binary64.leastExponent := h.bits.resolve_left (by rw [hm]; decide)
    rw [hm, hleast]
    cases s <;> rfl
  · rename_i hm
    have hpos : 0 < m := Nat.pos_of_ne_zero hm
    dsimp only
    generalize hd : Decimal.shortest .toEven m e = d
    have hholds := Decimal.holds_shortest .toEven e hpos h.mantissa
    rw [hd] at hholds
    have hread : Numeral.IsReadAs (Decimal.signed s
        (if -5 < d.pointPlace ∧ d.pointPlace ≤ 16 then
          if 0 ≤ d.exponent then d.positional ++ ['.', '0'] else d.positional
        else d.scientific)) s d.value := by
      split
      · split
        · exact Decimal.isReadAs_integral s ‹_›
        · exact Decimal.isReadAs_positional s (not_le.1 ‹_›)
      · exact Decimal.isReadAs_scientific s d
    obtain ⟨n, hn, rfl, hvalue⟩ := hread
    rw [← hvalue] at hholds
    rw [hn, Option.map_some, Numeral.toBinary64_eq_finite hpos h hholds]

/-- A double that has been read is read back from its text. -/
theorem toBinary64_floatText_toBinary64 {n : Numeral} (h : n.toBinary64.isFinite = true) :
    (Numeral.read? (floatText n.toBinary64)).map Numeral.toBinary64 = some n.toBinary64 := by
  cases hn : n.toBinary64 with
  | finite s m e => exact toBinary64_floatText (Numeral.isStandard_of_toBinary64 hn)
  | nan =>
    rw [hn] at h
    cases h
  | infinity s =>
    rw [hn] at h
    cases h

end Json

end JsonTemplate
