import JsonTemplate.Bytewise.Expression
import JsonTemplate.Proofs.Cuts

/-!
# The bytes of an expression

A part goes from one place to the next sign (`splitFrom_eq`), and quotes are one byte each, so that
a byte is taken off either end in place. An expression is cut into its parts (`parse_eq`).
-/

namespace JsonTemplate.Bytewise

open Text

/-! ## Signs -/

theorem modifyHead_nil_append (parts : List (List Char)) : parts.modifyHead ([] ++ ·) = parts := by
  cases parts <;> rfl

/-- The part so far begins at a place, and the signs are found where the text is cut. -/
theorem splitFrom_eq {t current rest : List Char} {start : Nat} (h : At t start (current ++ rest))
    (parts : List (List Char)) (s : Cursor) :
    splitFrom t start parts s (start + utf8Length current) rest
      = pure (parts ++ (JsonTemplate.splitFrom s rest).modifyHead (current ++ ·)) := by
  induction rest generalizing start current parts s with
  | nil =>
    rw [splitFrom, h.remaining, pure_bind]
    simp [JsonTemplate.splitFrom]
  | cons c rest ih =>
    rw [splitFrom, JsonTemplate.splitFrom]
    by_cases hsign : s = .top ∧ c = '+'
    · obtain ⟨rfl, rfl⟩ := hsign
      have hnext : At t (start + utf8Length current + 1) ([] ++ rest) := h.append.cons
      rw [if_pos ⟨rfl, rfl⟩, if_pos ⟨rfl, rfl⟩, h.slice, pure_bind]
      refine (ih hnext (parts ++ [current]) .top).trans ?_
      rw [modifyHead_nil_append, List.modifyHead_cons, List.append_nil, List.append_assoc]
      rfl
    · have hnext : At t start (current ++ [c] ++ rest) := by
        rwa [List.append_assoc]
      have hpos : start + utf8Length current + c.utf8Size
          = start + utf8Length (current ++ [c]) := by
        rw [utf8Length_append, Nat.add_assoc]
        rfl
      rw [if_neg hsign, if_neg hsign, hpos, ih hnext, List.modifyHead_modifyHead]
      simp [Function.comp_def]

theorem splitAtSigns_eq (t : List Char) :
    splitAtSigns t = pure (JsonTemplate.splitAtSigns t) := by
  have h : At t 0 ([] ++ t) := At.start t
  refine (splitFrom_eq h [] .top).trans ?_
  rw [modifyHead_nil_append, List.nil_append]
  rfl

/-! ## Quotes -/

theorem exists_eq_of_head?_of_getLast? {quote : Char} {t : List Char}
    (hhead : t.head? = some quote) (hlast : t.getLast? = some quote) (hne : t ≠ [quote]) :
    ∃ m, t = quote :: (m ++ [quote]) := by
  obtain ⟨u, rfl⟩ := List.head?_eq_some_iff.1 hhead
  rcases List.eq_nil_or_concat u with rfl | ⟨m, d, rfl⟩
  · exact absurd rfl hne
  · rw [List.concat_eq_append, ← List.cons_append, List.getLast?_concat] at hlast
    cases hlast
    exact ⟨m, by rw [List.concat_eq_append]⟩

theorem unquote?_eq_some_iff {quote : Char} {t m : List Char} :
    Segment.unquote? quote t = some m ↔ t = quote :: (m ++ [quote]) := by
  unfold Segment.unquote?
  constructor
  · intro h
    split at h
    · rename_i hquote
      cases h
      obtain ⟨hlength, hhead, hlast⟩ := hquote
      have hne : t ≠ [quote] := by
        rintro rfl
        exact absurd hlength (Nat.not_succ_le_self 1)
      obtain ⟨m, rfl⟩ := exists_eq_of_head?_of_getLast? hhead hlast hne
      rw [List.tail_cons, List.dropLast_concat]
    · cases h
  · rintro rfl
    have hlast : (quote :: (m ++ [quote])).getLast? = some quote := by
      rw [← List.cons_append, List.getLast?_concat]
    rw [if_pos ⟨by simp, rfl, hlast⟩, List.tail_cons, List.dropLast_concat]

/-- A quote that is one byte begins and ends a text of two bytes or more just if it does one of two
characters or more. -/
theorem isBetween_eq {quote : Char} (hquote : quote.utf8Size = 1) (t : List Char) :
    isBetween quote t = (Segment.unquote? quote t).isSome := by
  rw [Bool.eq_iff_iff, Option.isSome_iff_exists]
  simp only [unquote?_eq_some_iff, isBetween, Bool.and_eq_true, beq_iff_eq, decide_eq_true_eq]
  constructor
  · rintro ⟨⟨hlength, hhead⟩, hlast⟩
    refine exists_eq_of_head?_of_getLast? hhead hlast ?_
    rintro rfl
    rw [utf8Length, hquote] at hlength
    exact absurd hlength (by decide)
  · rintro ⟨m, rfl⟩
    refine ⟨⟨?_, rfl⟩, by rw [← List.cons_append, List.getLast?_concat]⟩
    rw [utf8Length, utf8Length_append, utf8Length, hquote]
    omega

theorem inner_eq {quote : Char} (hquote : quote.utf8Size = 1) {t m : List Char}
    (h : Segment.unquote? quote t = some m) : inner t = pure m := by
  have ht := unquote?_eq_some_iff.1 h
  have hat : At t 1 (m ++ [quote]) := by
    rw [← hquote, ← Nat.zero_add quote.utf8Size]
    exact At.cons (ht ▸ At.start t)
  have hlength : utf8Length t - 1 = 1 + utf8Length m := by
    rw [hat.utf8Length_eq, utf8Length_append, utf8Length, hquote]
    rfl
  have hpos : 1 ≤ utf8Length t := by
    rw [hat.utf8Length_eq]
    exact Nat.le_add_right 1 _
  rw [inner, minus_eq hpos, pure_bind, hlength, hat.slice]

/-! ## Parts -/

theorem parseSegment_eq (t : List Char) : parseSegment t = pure (Segment.parse t) := by
  unfold parseSegment
  split
  · rfl
  · rename_i hsign
    rw [Segment.parse.eq_2 t hsign, isBetween_eq (by decide), isBetween_eq (by decide)]
    cases hdouble : Segment.unquote? '"' t with
    | some m =>
      rw [Option.isSome_some, if_pos rfl, inner_eq (by decide) hdouble]
      dsimp only
      unfold Segment.decode
      cases Json.read t with
      | error e => rfl
      | ok j => cases j <;> rfl
    | none =>
      rw [Option.isSome_none, if_neg Bool.false_ne_true]
      cases hsingle : Segment.unquote? '\'' t with
      | some m =>
        rw [Option.isSome_some, if_pos rfl, inner_eq (by decide) hsingle]
        rfl
      | none =>
        rw [Option.isSome_none, if_neg Bool.false_ne_true]

theorem parse_eq (t : List Char) : parse t = pure (Expression.parse t) := by
  rw [parse, splitAtSigns_eq, pure_bind, funext fun part => parseSegment_eq (trim part),
    List.mapM_pure]
  rfl

end JsonTemplate.Bytewise
