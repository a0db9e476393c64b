import JsonTemplate.Json.Printer
import JsonTemplate.Proofs.Tokens

/-!
# Texts of numbers

Every character of a number is one of a few (`isNumeric`). An integer is read back from its text
(`readInt?_intText`), and a finite double is never read as an integer: a point or an exponent is in
its text (`readInt?_floatText`).
-/

namespace JsonTemplate

open Text

/-- The characters that a number may have. -/
def isNumeric (c : Char) : Bool :=
  c.isDigit || c == '.' || c == 'e' || c == 'E' || c == '+' || c == '-'

theorem isNumeric_of_isDigit {c : Char} (h : c.isDigit = true) : isNumeric c = true := by
  simp [isNumeric, h]

theorem isBlank_of_isNumeric {c : Char} (h : isNumeric c = true) : isBlank c = false := by
  simp only [isNumeric, Bool.or_eq_true, beq_iff_eq] at h
  rcases h with ((((h | rfl) | rfl) | rfl) | rfl) | rfl
  · exact Token.isBlank_of_isNameChar (by simp [Token.isNameChar, Char.isAlphanum, h])
  all_goals rfl

/-! ## Integers -/

namespace Text

theorem natOfDigits_natText (n : Nat) : natOfDigits (natText n) = n :=
  Nat.ofDigitChars_ten_toDigits

theorem natText_ne_nil (n : Nat) : natText n ≠ [] :=
  Nat.toDigits_ne_nil

theorem readNat?_natText (n : Nat) : readNat? (natText n) = some n := by
  have hall : (natText n).all Char.isDigit = true :=
    List.all_eq_true.2 fun c hc => isDigit_of_mem_natText hc
  rw [readNat?, if_pos ⟨natText_ne_nil n, hall⟩, natOfDigits_natText]

theorem isNumeric_of_mem_natText {c : Char} {n : Nat} (h : c ∈ natText n) : isNumeric c = true :=
  isNumeric_of_isDigit (isDigit_of_mem_natText h)

theorem isNumeric_of_mem_intText {c : Char} {n : Int} (h : c ∈ intText n) :
    isNumeric c = true := by
  unfold intText at h
  split at h
  · rcases List.mem_cons.1 h with rfl | h
    · rfl
    · exact isNumeric_of_mem_natText h
  · exact isNumeric_of_mem_natText h

end Text

/-- A text that begins with a digit has no sign. -/
theorem splitSign_of_isDigit {c : Char} (h : c.isDigit = true) (t : List Char) :
    splitSign (c :: t) = (false, c :: t) := by
  unfold splitSign
  split
  · rename_i heq
    rw [(List.cons.inj heq).1] at h
    cases h
  · rename_i heq
    rw [(List.cons.inj heq).1] at h
    cases h
  · rfl

theorem splitSign_natText (n : Nat) : splitSign (natText n) = (false, natText n) := by
  obtain ⟨c, t, ht⟩ := List.exists_cons_of_ne_nil (natText_ne_nil n)
  have hc : c.isDigit = true :=
    isDigit_of_mem_natText (n := n) (by rw [ht]; exact List.mem_cons_self)
  rw [ht, splitSign_of_isDigit hc]

theorem applySign_natAbs (n : Int) : applySign (decide (n < 0)) n.natAbs = n := by
  unfold applySign
  split
  · rename_i h
    rw [decide_eq_true_eq] at h
    omega
  · rename_i h
    rw [decide_eq_true_eq] at h
    omega

theorem readInt?_intText {lo hi n : Int} (hlo : lo ≤ n) (hhi : n ≤ hi) :
    readInt? lo hi (intText n) = some n := by
  have hsplit : splitSign (intText n) = (decide (n < 0), natText n.natAbs) := by
    unfold intText
    split
    · rename_i h
      rw [decide_eq_true h]
      rfl
    · rename_i h
      rw [decide_eq_false h]
      exact splitSign_natText n.natAbs
  simp only [readInt?, hsplit, readNat?_natText, Option.bind_some, applySign_natAbs]
  rw [if_pos ⟨hlo, hhi⟩]

theorem readInt?_bounds {lo hi n : Int} {t : List Char} (h : readInt? lo hi t = some n) :
    lo ≤ n ∧ n ≤ hi := by
  simp only [readInt?, Option.bind_eq_some_iff, Option.ite_none_right_eq_some,
    Option.some.injEq] at h
  obtain ⟨_, -, hbounds, rfl⟩ := h
  exact hbounds

/-- An integer has no characters but digits, and a sign. -/
theorem readInt?_eq_none {lo hi : Int} {t : List Char}
    (h : ∃ c ∈ t, c.isDigit = false ∧ c ≠ '-' ∧ c ≠ '+') : readInt? lo hi t = none := by
  obtain ⟨c, hc, hdigit, hminus, hplus⟩ := h
  have hmem : c ∈ (splitSign t).2 := by
    unfold splitSign
    split
    · exact (List.mem_cons.1 hc).resolve_left hminus
    · exact (List.mem_cons.1 hc).resolve_left hplus
    · exact hc
  have hnone : readNat? (splitSign t).2 = none := by
    rw [readNat?, if_neg]
    rintro ⟨-, hall⟩
    rw [List.all_eq_true.1 hall c hmem] at hdigit
    cases hdigit
  simp only [readInt?, hnone, Option.bind_none]

/-! ## Doubles -/

namespace Decimal

theorem isNumeric_of_mem_signed {negative : Bool} {t : List Char}
    (h : ∀ c ∈ t, isNumeric c = true) : ∀ c ∈ signed negative t, isNumeric c = true := by
  unfold signed
  split
  · exact List.forall_mem_cons.2 ⟨rfl, h⟩
  · exact h

theorem mem_signed_of_mem {negative : Bool} {t : List Char} {c : Char} (h : c ∈ t) :
    c ∈ signed negative t := by
  unfold signed
  split
  · exact List.mem_cons_of_mem _ h
  · exact h

theorem isNumeric_of_mem_positional (d : Decimal) : ∀ c ∈ d.positional, isNumeric c = true := by
  have hdigit : ∀ c ∈ natText d.digits, isNumeric c = true := fun c => isNumeric_of_mem_natText
  have hnought : ∀ n, ∀ c ∈ List.replicate n '0', isNumeric c = true := by
    intro n c hc
    rw [List.eq_of_mem_replicate hc]
    rfl
  unfold positional
  dsimp only
  split
  · exact List.forall_mem_append.2 ⟨hdigit, hnought _⟩
  · split
    · refine List.forall_mem_append.2 ⟨fun c hc => hdigit c (List.mem_of_mem_take hc), ?_⟩
      exact List.forall_mem_cons.2 ⟨rfl, fun c hc => hdigit c (List.mem_of_mem_drop hc)⟩
    · refine List.forall_mem_append.2 ⟨?_, hdigit⟩
      exact List.forall_mem_cons.2 ⟨rfl, List.forall_mem_cons.2 ⟨rfl, hnought _⟩⟩

theorem isNumeric_of_mem_scientific (d : Decimal) : ∀ c ∈ d.scientific, isNumeric c = true := by
  have hdigit : ∀ c ∈ natText d.digits, isNumeric c = true := fun c => isNumeric_of_mem_natText
  unfold scientific
  split
  · exact nofun
  · rename_i lead rest hd
    rw [hd, List.forall_mem_cons] at hdigit
    refine List.forall_mem_append.2 ⟨List.forall_mem_cons.2 ⟨hdigit.1, ?_⟩, ?_⟩
    · split
      · exact nofun
      · exact List.forall_mem_cons.2 ⟨rfl, hdigit.2⟩
    · refine List.forall_mem_cons.2
        ⟨rfl, List.forall_mem_cons.2 ⟨?_, fun c => isNumeric_of_mem_natText⟩⟩
      split <;> rfl

theorem point_mem_positional {d : Decimal} (h : ¬ 0 ≤ d.exponent) : '.' ∈ d.positional := by
  unfold positional
  simp only [if_neg h]
  split <;> simp

theorem letter_mem_scientific (d : Decimal) : 'e' ∈ d.scientific := by
  unfold scientific
  split
  · rename_i hd
    exact absurd hd (natText_ne_nil d.digits)
  · simp

end Decimal

namespace Json

theorem floatText_of_not_isFinite {x : Binary64} (h : x.isFinite = false) :
    floatText x = ['n', 'u', 'l', 'l'] := by
  cases x with
  | finite => cases h
  | _ => rfl

theorem isNumeric_of_mem_floatText {x : Binary64} (hx : x.isFinite = true) {c : Char}
    (hc : c ∈ floatText x) : isNumeric c = true := by
  cases x with
  | finite s m e =>
    rw [floatText] at hc
    split at hc
    · exact Decimal.isNumeric_of_mem_signed (List.all_eq_true.1 rfl) c hc
    · refine Decimal.isNumeric_of_mem_signed ?_ c hc
      split
      · split
        · exact List.forall_mem_append.2
            ⟨Decimal.isNumeric_of_mem_positional _, List.all_eq_true.1 rfl⟩
        · exact Decimal.isNumeric_of_mem_positional _
      · exact Decimal.isNumeric_of_mem_scientific _
  | _ => cases hx

/-- The text of a finite double has a point or an exponent. -/
theorem exists_mem_floatText {x : Binary64} (hx : x.isFinite = true) :
    ∃ c ∈ floatText x, c = '.' ∨ c = 'e' := by
  cases x with
  | finite s m e =>
    rw [floatText]
    split
    · exact ⟨'.', Decimal.mem_signed_of_mem (by decide), .inl rfl⟩
    · dsimp only
      split
      · split
        · exact ⟨'.', Decimal.mem_signed_of_mem (by simp), .inl rfl⟩
        · exact ⟨'.', Decimal.mem_signed_of_mem (Decimal.point_mem_positional ‹_›), .inl rfl⟩
      · exact ⟨'e', Decimal.mem_signed_of_mem (Decimal.letter_mem_scientific _), .inr rfl⟩
  | _ => cases hx

theorem readInt?_floatText {x : Binary64} (hx : x.isFinite = true) (lo hi : Int) :
    readInt? lo hi (floatText x) = none := by
  obtain ⟨c, hc, h⟩ := exists_mem_floatText hx
  refine readInt?_eq_none ⟨c, hc, ?_⟩
  rcases h with rfl | rfl <;> decide

end Json

end JsonTemplate
