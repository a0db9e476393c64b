import JsonTemplate.Calendar.Timestamp
import JsonTemplate.Proofs.NumberText
import JsonTemplate.Proofs.PlaceholderText
import JsonTemplate.Proofs.Strings

/-!
# Texts without placeholders

A text is unmarked if no placeholder begins in it. Writing a value neither joins two of its strings
nor breaks one up but at an escape, so that the text of a value is unmarked if all its strings are
(`unmarked_compactText`).
-/

namespace JsonTemplate

open Text

namespace Placeholder

/-- How the placeholders of expressions and of blocks begin. -/
def starts : List (List Char) :=
  ["__EXPR_".toList, "__REPEAT_".toList]

theorem starts_eq : starts = [['_', '_', 'E', 'X', 'P', 'R', '_'],
    ['_', '_', 'R', 'E', 'P', 'E', 'A', 'T', '_']] :=
  rfl

theorem underscore_mem_starts : ∀ m ∈ starts, '_' ∈ m := by
  rw [starts_eq]
  decide

theorem exists_eq_cons_of_mem_starts {m : List Char} (hm : m ∈ starts) :
    ∃ w, m = '_' :: w ∧ '\\' ∉ '_' :: w := by
  simp only [starts_eq, List.mem_cons, List.not_mem_nil, or_false] at hm
  rcases hm with rfl | rfl
  · exact ⟨_, rfl, by decide⟩
  · exact ⟨_, rfl, by decide⟩

theorem isUpper_of_mem_starts : ∀ m ∈ starts, ∀ c ∈ m, c = '_' ∨ c.isUpper = true := by
  have h : starts.all (fun m => m.all fun c => c == '_' || c.isUpper) = true := by
    rw [starts_eq]
    decide
  simpa using h

theorem isNameChar_of_mem_starts {m : List Char} (hm : m ∈ starts) {c : Char} (hc : c ∈ m) :
    Token.isNameChar c = true := by
  rcases isUpper_of_mem_starts m hm c hc with rfl | h
  · rfl
  · show (((c.isUpper || c.isLower) || c.isDigit) || c == '_') = true
    rw [h]
    rfl

end Placeholder

open Placeholder

/-- No placeholder begins in the text. -/
def Unmarked (t : List Char) : Prop :=
  ∀ m ∈ starts, ¬ m <:+: t

instance (t : List Char) : Decidable (Unmarked t) :=
  inferInstanceAs (Decidable (∀ m ∈ starts, ¬ m <:+: t))

theorem Unmarked.part {s t : List Char} (h : Unmarked t) (hs : s <:+: t) : Unmarked s :=
  fun m hm hi => h m hm (hi.trans hs)

theorem unmarked_of_notMem {t : List Char} (h : '_' ∉ t) : Unmarked t :=
  fun m hm hi => h (hi.subset (underscore_mem_starts m hm))

theorem unmarked_append_cons {c : Char} (hc : Token.isNameChar c = false) {s t : List Char} :
    Unmarked (s ++ c :: t) ↔ Unmarked s ∧ Unmarked t := by
  constructor
  · intro h
    exact ⟨h.part ⟨[], c :: t, by simp⟩, h.part ⟨s ++ [c], [], by simp⟩⟩
  · rintro ⟨hs, ht⟩ m hm hi
    have hnot : c ∉ m := by
      intro hmem
      have := isNameChar_of_mem_starts hm hmem
      rw [hc] at this
      cases this
    rcases infix_or_of_notMem hnot hi with h | h
    · exact hs m hm h
    · exact ht m hm h

theorem unmarked_nil : Unmarked [] :=
  unmarked_of_notMem (by simp)

theorem unmarked_cons {c : Char} (hc : Token.isNameChar c = false) {t : List Char} :
    Unmarked (c :: t) ↔ Unmarked t := by
  have := unmarked_append_cons hc (s := []) (t := t)
  rw [List.nil_append] at this
  rw [this]
  exact and_iff_right unmarked_nil

theorem unmarked_append_singleton {c : Char} (hc : Token.isNameChar c = false) {t : List Char} :
    Unmarked (t ++ [c]) ↔ Unmarked t := by
  rw [unmarked_append_cons hc]
  exact and_iff_left unmarked_nil

theorem unmarked_intercalate : ∀ {ts : List (List Char)}, (∀ t ∈ ts, Unmarked t) →
    Unmarked ([','].intercalate ts)
  | [], _ => unmarked_nil
  | [t], h => by
    simpa [List.intercalate] using h t List.mem_cons_self
  | t :: u :: ts, h => by
    have hrest := unmarked_intercalate fun s hs => h s (List.mem_cons_of_mem t hs)
    have heq : [','].intercalate (t :: u :: ts) = t ++ ',' :: [','].intercalate (u :: ts) := by
      simp [List.intercalate]
    rw [heq, unmarked_append_cons rfl]
    exact ⟨h t List.mem_cons_self, hrest⟩

/-! ## Printed values -/

namespace Json

/-- A character stands for itself, or a backslash and other characters, neither signs nor
underscores, stand for it. -/
theorem escapeChar_eq_or (c : Char) : escapeChar c = [c] ∨
    ∃ u, escapeChar c = '\\' :: u ∧ '@' ∉ u ∧ '_' ∉ u := by
  have hhex : ∀ n < 16, hexDigit n ≠ '@' ∧ hexDigit n ≠ '_' := by decide
  unfold escapeChar
  iterate 7 (split; · exact .inr ⟨_, rfl, by decide⟩)
  split
  · rename_i h
    have hn : c.toNat < 32 := h
    have h₁ := hhex (c.toNat / 16) (by omega)
    have h₂ := hhex (c.toNat % 16) (by omega)
    exact .inr ⟨_, rfl, by simp [h₁.1.symm, h₂.1.symm], by simp [h₁.2.symm, h₂.2.symm]⟩
  · exact .inl rfl

/-- What has no backslash at the head of an escaped text has not been escaped. -/
theorem prefix_of_prefix_escaped : ∀ {t w : List Char}, '\\' ∉ w →
    w <+: t.flatMap escapeChar → w <+: t
  | _, [], _, _ => List.nil_prefix
  | [], _ :: _, _, h => h
  | c :: t, a :: w, hw, h => by
    rw [List.mem_cons, not_or] at hw
    rw [List.flatMap_cons] at h
    rcases escapeChar_eq_or c with hc | ⟨u, hc, -⟩
    · rw [hc, List.singleton_append, List.cons_prefix_cons] at h
      rw [h.1, List.cons_prefix_cons]
      exact ⟨rfl, prefix_of_prefix_escaped hw.2 h.2⟩
    · rw [hc, List.cons_append, List.cons_prefix_cons] at h
      exact absurd h.1.symm hw.1

/-- What begins with a sign or an underscore, and has no backslash, has not been escaped. -/
theorem infix_of_infix_escaped {a : Char} {w : List Char} (ha : a = '@' ∨ a = '_')
    (hw : '\\' ∉ a :: w) : ∀ {t : List Char}, a :: w <:+: t.flatMap escapeChar → a :: w <:+: t
  | [], h => h
  | c :: t, h => by
    have ih := infix_of_infix_escaped ha hw (t := t)
    have hcons := (List.suffix_cons c t).isInfix
    rcases escapeChar_eq_or c with hc | ⟨u, hc, hsign, hunderscore⟩
    · rw [List.flatMap_cons, hc, List.singleton_append, List.infix_cons_iff] at h
      rcases h with h | h
      · have hflat : c :: t.flatMap escapeChar = (c :: t).flatMap escapeChar := by
          rw [List.flatMap_cons, hc, List.singleton_append]
        rw [hflat] at h
        exact (prefix_of_prefix_escaped hw h).isInfix
      · exact (ih h).trans hcons
    · have hnot : a ∉ escapeChar c := by
        rw [hc]
        rcases ha with rfl | rfl
        · exact List.not_mem_cons_of_ne_of_not_mem (by decide) hsign
        · exact List.not_mem_cons_of_ne_of_not_mem (by decide) hunderscore
      rw [List.flatMap_cons] at h
      rcases List.infix_append_iff.1 h with h | h | ⟨x, y, hxy, hx, hy⟩
      · exact absurd (h.subset List.mem_cons_self) hnot
      · exact (ih h).trans hcons
      · cases x with
        | nil =>
          rw [List.nil_append] at hxy
          exact (ih (hxy ▸ hy.isInfix)).trans hcons
        | cons b x =>
          rw [(List.cons.inj hxy).1] at hnot
          exact absurd (hx.subset List.mem_cons_self) hnot

theorem unmarked_quoted {t : List Char} (h : Unmarked t) : Unmarked (quoted t) := by
  rw [quoted, unmarked_append_singleton rfl, unmarked_cons rfl]
  intro m hm hi
  obtain ⟨w, rfl, hw⟩ := exists_eq_cons_of_mem_starts hm
  exact h _ hm (infix_of_infix_escaped (.inr rfl) hw hi)

end Json

namespace Json

theorem underscore_notMem_numberText (n : JsonNumber) : '_' ∉ numberText n := by
  have hnumeric : ∀ {t : List Char}, (∀ c ∈ t, isNumeric c = true) → '_' ∉ t :=
    fun h hm => absurd (h _ hm) (by decide)
  cases n with
  | integer n => exact hnumeric fun c hc => isNumeric_of_mem_intText hc
  | float x =>
    cases hx : x.isFinite with
    | true => exact hnumeric fun c hc => isNumeric_of_mem_floatText hx hc
    | false => simp [numberText, floatText_of_not_isFinite hx]

/-- No string of the value has a placeholder's beginning in it, be it a value or a name. -/
structure Unmarked (v : Json) : Prop where
  values : ∀ s ∈ v.values, JsonTemplate.Unmarked s.toList
  keys : ∀ k ∈ v.keys, JsonTemplate.Unmarked k.toList

mutual

theorem unmarked_compactText : ∀ v : Json, v.Unmarked → JsonTemplate.Unmarked v.compactText
  | .null, _ => unmarked_of_notMem (by decide)
  | .bool b, _ => unmarked_of_notMem (by cases b <;> decide)
  | .number n, _ => unmarked_of_notMem (underscore_notMem_numberText n)
  | .string s, h => unmarked_quoted (h.values s (by simp))
  | .array items, h => by
    rw [compactText, unmarked_append_singleton rfl, unmarked_cons rfl]
    exact unmarked_intercalate (unmarked_compactItems items h.values h.keys)
  | .object fields, h => by
    rw [compactText, unmarked_append_singleton rfl, unmarked_cons rfl]
    exact unmarked_intercalate (unmarked_compactFields fields h.values h.keys)

theorem unmarked_compactItems : ∀ items : List Json,
    (∀ s ∈ valuesOfItems items, JsonTemplate.Unmarked s.toList) →
    (∀ k ∈ keysOfItems items, JsonTemplate.Unmarked k.toList) →
      ∀ t ∈ compactItems items, JsonTemplate.Unmarked t
  | [], _, _, t, ht => by cases ht
  | item :: rest, hv, hk, t, ht => by
    rw [valuesOfItems_cons] at hv
    rw [keysOfItems_cons] at hk
    rcases List.mem_cons.1 ht with rfl | ht
    · exact unmarked_compactText item ⟨fun s hs => hv s (List.mem_append_left _ hs),
        fun k h => hk k (List.mem_append_left _ h)⟩
    · exact unmarked_compactItems rest (fun s hs => hv s (List.mem_append_right _ hs))
        (fun k h => hk k (List.mem_append_right _ h)) t ht

theorem unmarked_compactFields : ∀ fields : Fields,
    (∀ s ∈ valuesOfFields fields, JsonTemplate.Unmarked s.toList) →
    (∀ k ∈ keysOfFields fields, JsonTemplate.Unmarked k.toList) →
      ∀ t ∈ compactFields fields, JsonTemplate.Unmarked t
  | [], _, _, t, ht => by cases ht
  | (key, value) :: rest, hv, hk, t, ht => by
    rw [valuesOfFields_cons] at hv
    rw [keysOfFields_cons, List.forall_mem_cons] at hk
    rcases List.mem_cons.1 ht with rfl | ht
    · rw [unmarked_append_cons rfl]
      exact ⟨unmarked_quoted hk.1, unmarked_compactText value
        ⟨fun s hs => hv s (List.mem_append_left _ hs),
          fun k h => hk.2 k (List.mem_append_left _ h)⟩⟩
    · exact unmarked_compactFields rest (fun s hs => hv s (List.mem_append_right _ hs))
        (fun k h => hk.2 k (List.mem_append_right _ h)) t ht

end

theorem unmarked_display {v : Json} (h : v.Unmarked) : JsonTemplate.Unmarked v.display.toList := by
  unfold display
  split
  · exact h.values _ (by simp)
  · rw [compact, String.toList_ofList]
    exact unmarked_compactText v h

end Json

/-! ## Dates -/

namespace Calendar

theorem underscore_notMem_padded (width n : Nat) : '_' ∉ padded width n := by
  simp [padded, notMem_natText]

theorem underscore_notMem_dateText (d : Date) : '_' ∉ d.text := by
  have hyear : '_' ∉ yearText d.year := by
    unfold yearText
    split
    · exact underscore_notMem_padded _ _
    · split <;> simp [underscore_notMem_padded]
  simp [Date.text, hyear, underscore_notMem_padded]

theorem unmarked_dateOf {v : Json} (h : v.Unmarked) : (dateOf v).Unmarked := by
  cases v with
  | string s =>
    refine ⟨fun x hx => ?_, fun k hk => by cases hk⟩
    rw [dateOf, Json.values_string, List.mem_singleton] at hx
    rw [hx, String.toList_ofList]
    unfold dateText
    split
    · exact unmarked_of_notMem (underscore_notMem_dateText _)
    · exact (h.values s (by simp)).part (List.takeWhile_prefix _).isInfix
  | _ => exact h

end Calendar

end JsonTemplate
