import JsonTemplate.Calendar.Timestamp
import JsonTemplate.Proofs.FloatText
import Mathlib.Data.List.Induction

/-!
# Dates in texts

A date that a `T` follows is what `dateOf` leaves of a text (`Calendar.dateOf_written`). Such a text
may be a timestamp, whose date is read and written again, or none, in which case it is cut. Reading
loses nothing that writing does not bring back, since so many digits as a number may have are told
from the number (`Text.padded_natOfDigits`).
-/

namespace JsonTemplate

open Text

/-! ## Digits in front of a text -/

namespace Text

theorem digitValue_lt {c : Char} (h : c.isDigit = true) : digitValue c < 10 := by
  have hle : c.toNat ≤ 57 := (Char.isDigit_iff_toNat.1 h).2
  unfold digitValue
  omega

theorem digitValue_inj {c d : Char} (hc : c.isDigit = true) (hd : d.isDigit = true)
    (h : digitValue c = digitValue d) : c = d := by
  have hc : 48 ≤ c.toNat := (Char.isDigit_iff_toNat.1 hc).1
  have hd : 48 ≤ d.toNat := (Char.isDigit_iff_toNat.1 hd).1
  unfold digitValue at h
  exact Char.toNat_inj.1 (by omega)

theorem natOfDigits_concat (ds : List Char) (d : Char) :
    natOfDigits (ds ++ [d]) = 10 * natOfDigits ds + digitValue d := by
  simp [natOfDigits]

theorem natOfDigits_lt (ds : List Char) (h : ∀ c ∈ ds, c.isDigit = true) :
    natOfDigits ds < 10 ^ ds.length := by
  induction ds using List.reverseRecOn with
  | nil => exact Nat.one_pos
  | append_singleton ds d ih =>
    have hd := digitValue_lt (h d (by simp))
    have ih := ih fun c hc => h c (by simp [hc])
    rw [natOfDigits_concat, List.length_append, List.length_singleton, pow_succ]
    omega

/-- A number has but one text of a given length. -/
theorem natOfDigits_inj (ds : List Char) : ∀ es : List Char, ds.length = es.length →
    (∀ c ∈ ds, c.isDigit = true) → (∀ c ∈ es, c.isDigit = true) →
    natOfDigits ds = natOfDigits es → ds = es := by
  induction ds using List.reverseRecOn with
  | nil => exact fun es hlength _ _ _ => (List.eq_nil_of_length_eq_zero hlength.symm).symm
  | append_singleton ds d ih =>
    intro es hlength hds hes h
    obtain rfl | ⟨es, e, rfl⟩ := es.eq_nil_or_concat'
    · simp at hlength
    · have hd := hds d (by simp)
      have he := hes e (by simp)
      rw [natOfDigits_concat, natOfDigits_concat] at h
      have hltd := digitValue_lt hd
      have hlte := digitValue_lt he
      have hlast : d = e := digitValue_inj hd he (by omega)
      have hfront : ds = es := ih es (by simpa using hlength) (fun c hc => hds c (by simp [hc]))
        (fun c hc => hes c (by simp [hc])) (by omega)
      rw [hlast, hfront]

/-- Just so many digits. -/
structure Digits (count : Nat) (ds : List Char) : Prop where
  length : ds.length = count
  isDigit : ∀ c ∈ ds, c.isDigit = true

instance (count : Nat) (ds : List Char) : Decidable (Digits count ds) :=
  decidable_of_iff (ds.length = count ∧ ds.all Char.isDigit = true)
    ⟨fun h => ⟨h.1, List.all_eq_true.1 h.2⟩, fun h => ⟨h.1, List.all_eq_true.2 h.2⟩⟩

end Text

namespace Calendar

theorem isDigit_of_mem_padded {c : Char} {width n : Nat} (h : c ∈ padded width n) :
    c.isDigit = true := by
  rcases List.mem_append.1 h with h | h
  · exact Decimal.isDigit_of_mem_noughts c h
  · exact isDigit_of_mem_natText h

/-- Digits are the text, in their number, of what they denote. -/
theorem padded_natOfDigits {count : Nat} {ds : List Char} (hcount : 0 < count)
    (h : Digits count ds) : padded count (natOfDigits ds) = ds := by
  have hlt : natOfDigits ds < 10 ^ count := h.length ▸ natOfDigits_lt ds h.isDigit
  have hshort : (natText (natOfDigits ds)).length ≤ count :=
    (Nat.length_toDigits_le_iff (by decide) hcount).2 hlt
  refine natOfDigits_inj _ ds ?_ (fun c hc => isDigit_of_mem_padded hc) h.isDigit ?_
  · simp only [padded, List.length_append, List.length_replicate, h.length]
    omega
  · rw [padded, natOfDigits_replicate_append, natOfDigits_natText]

theorem splitDigits?_append {count : Nat} {ds : List Char} (h : Digits count ds)
    (rest : List Char) : splitDigits? count (ds ++ rest) = some (natOfDigits ds, rest) := by
  rw [splitDigits?, List.take_left' h.length, List.drop_left' h.length,
    if_pos ⟨h.length, List.all_eq_true.2 h.isDigit⟩]

/-! ## Dates -/

/-- A text `dddd-dd-dd`, whether or not the calendar has the date. -/
def Written (t : List Char) : Prop :=
  ∃ year month day, Digits 4 year ∧ Digits 2 month ∧ Digits 2 day
    ∧ t = year ++ '-' :: (month ++ '-' :: day)

theorem yearText_natOfDigits {year : List Char} (h : Digits 4 year) :
    yearText (natOfDigits year) = year := by
  have hlt : natOfDigits year < 10 ^ 4 := h.length ▸ natOfDigits_lt year h.isDigit
  rw [yearText, if_pos (by omega), Int.natAbs_natCast, padded_natOfDigits (by decide) h]

/-- A date that is read is the one that is written. -/
theorem text_of_splitDate? {t rest rest' : List Char} {d : Date} (ht : Written t)
    (h : splitDate? (t ++ rest) = some (d, rest')) : d.text = t := by
  obtain ⟨year, month, day, hyear, hmonth, hday, rfl⟩ := ht
  rw [splitDate?, List.append_assoc, splitDigits?_append hyear] at h
  simp only [Option.bind_eq_bind, Option.bind_some, List.cons_append, List.append_assoc,
    splitChar?, beq_self_eq_true, if_true, splitDigits?_append hmonth,
    splitDigits?_append hday] at h
  split at h
  · obtain ⟨rfl, rfl⟩ := Prod.mk.inj (Option.some.inj h)
    rw [Date.text, yearText_natOfDigits hyear, padded_natOfDigits (by decide) hmonth,
      padded_natOfDigits (by decide) hday, List.append_assoc, List.cons_append]
  · cases h

/-- Neither the time of day nor the zone has a part in the date of a timestamp. -/
theorem exists_splitDate?_of_timestampDate? {t : List Char} {d : Date}
    (h : timestampDate? t = some d) : ∃ rest, splitDate? t = some (d, rest) := by
  simp only [timestampDate?, Option.bind_eq_bind, Option.bind_eq_some_iff] at h
  obtain ⟨⟨date, rest⟩, hdate, _, -, _, -, _, -, h⟩ := h
  obtain rfl : date = d := by
    split at h
    · exact Option.some.inj h
    · cases h
  exact ⟨rest, hdate⟩

theorem mem_written {t : List Char} (ht : Written t) {c : Char} (hc : c ∈ t) :
    c.isDigit = true ∨ c = '-' := by
  obtain ⟨year, month, day, hyear, hmonth, hday, rfl⟩ := ht
  simp only [List.mem_append, List.mem_cons] at hc
  rcases hc with hc | rfl | hc | rfl | hc
  · exact .inl (hyear.isDigit c hc)
  · exact .inr rfl
  · exact .inl (hmonth.isDigit c hc)
  · exact .inr rfl
  · exact .inl (hday.isDigit c hc)

theorem dateText_written {t : List Char} (ht : Written t) (rest : List Char) :
    dateText (t ++ 'T' :: rest) = t := by
  unfold dateText
  split
  · rename_i d h
    obtain ⟨rest', hdate⟩ := exists_splitDate?_of_timestampDate? h
    exact text_of_splitDate? ht hdate
  · rw [List.takeWhile_append_of_pos, List.takeWhile_cons_of_neg (by decide), List.append_nil]
    intro c hc
    rcases mem_written ht hc with hc | rfl
    · rw [bne_iff_ne]
      rintro rfl
      cases hc
    · rfl

theorem t_notMem_dateText (t : List Char) : 'T' ∉ dateText t := by
  have hpadded : ∀ width n, 'T' ∉ padded width n :=
    fun width n h => absurd (isDigit_of_mem_padded h) (by decide)
  unfold dateText
  split
  · rename_i d _
    have hyear : 'T' ∉ yearText d.year := by
      unfold yearText
      split
      · exact hpadded _ _
      · split <;> simp [hpadded]
    simp [Date.text, hyear, hpadded]
  · intro h
    exact absurd (List.mem_takeWhile_imp h) (by decide)

/-- What stands before the first `T` of a text is left of it if it is written as a date, be the text
a timestamp or not, with whatever time of day and zone. No text with a `T` is left of a string, and
other values stay. -/
theorem dateOf_written :
    (∀ t rest, Written t →
      dateOf (.string (String.ofList (t ++ 'T' :: rest))) = .string (String.ofList t))
    ∧ (∀ s, ∃ t, dateOf (.string s) = .string t ∧ 'T' ∉ t.toList)
    ∧ ∀ v, (∀ s, v ≠ .string s) → dateOf v = v := by
  refine ⟨fun t rest ht => ?_, fun s => ⟨_, rfl, ?_⟩, fun v hv => ?_⟩
  · rw [dateOf, String.toList_ofList, dateText_written ht]
  · rw [String.toList_ofList]
    exact t_notMem_dateText _
  · cases v with
    | string s => exact absurd rfl (hv s)
    | _ => rfl

/-- The last leap second of the year 9999 west of Greenwich, where the next day has begun, and a
date that the calendar does not have. -/
theorem dateOf_written_edges :
    Written "9999-12-31".toList ∧ Written "0000-00-99".toList
      ∧ (timestampDate? "9999-12-31T23:59:60.5-23:59".toList).isSome
      ∧ dateOf (.string (String.ofList ("9999-12-31".toList ++ 'T' :: "23:59:60.5-23:59".toList)))
          = .string (String.ofList "9999-12-31".toList)
      ∧ dateOf (.string (String.ofList ("0000-00-99".toList ++ 'T' :: "T".toList)))
          = .string (String.ofList "0000-00-99".toList) :=
  have hlast : Written "9999-12-31".toList :=
    ⟨"9999".toList, "12".toList, "31".toList, by decide +kernel, by decide +kernel,
      by decide +kernel, rfl⟩
  have hnone : Written "0000-00-99".toList :=
    ⟨"0000".toList, "00".toList, "99".toList, by decide +kernel, by decide +kernel,
      by decide +kernel, rfl⟩
  ⟨hlast, hnone, by decide +kernel, dateOf_written.1 _ _ hlast, dateOf_written.1 _ _ hnone⟩

end Calendar

end JsonTemplate
