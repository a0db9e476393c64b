import JsonTemplate.Bytewise.Basic
import JsonTemplate.Proofs.Grammar

/-!
# Cuts

A text is cut at two offsets exactly if they are places of it and in order (`exists_slice_iff`).
What stands at a place (`At`) tells what is read from there on, and where one comes to by passing
over a part of it.
-/

namespace JsonTemplate

open Text

namespace Text

theorem utf8ByteSize_ofList (t : List Char) : (String.ofList t).utf8ByteSize = utf8Length t := by
  induction t with
  | nil => rfl
  | cons c t ih =>
    rw [← List.singleton_append, String.ofList_append, String.utf8ByteSize_append, ih,
      utf8Length_append]
    simp [utf8Length]

theorem utf8Length_reverse (t : List Char) : utf8Length t.reverse = utf8Length t := by
  induction t with
  | nil => rfl
  | cons c t ih =>
    rw [List.reverse_cons, utf8Length_append, ih]
    simp only [utf8Length]
    omega

theorem utf8Length_cons_pos (c : Char) (t : List Char) : 0 < utf8Length (c :: t) :=
  Nat.lt_of_lt_of_le c.utf8Size_pos (Nat.le_add_right _ _)

theorem utf8Size_of_isAsciiBlank {c : Char} (hc : isAsciiBlank c = true) : c.utf8Size = 1 := by
  simp only [isAsciiBlank, Bool.or_eq_true, beq_iff_eq] at hc
  rcases hc with (((rfl | rfl) | rfl) | rfl) | rfl <;> rfl

/-- Within a character's code, or past the end, there is no place. -/
theorem isValid_ofList_iff {t : List Char} {n : Nat} :
    (⟨n⟩ : String.Pos.Raw).IsValid (String.ofList t) ↔ ∃ s u, t = s ++ u ∧ utf8Length s = n := by
  rw [String.Pos.Raw.isValid_ofList]
  constructor
  · rintro ⟨i, hi⟩
    exact ⟨t.take i, t.drop i, (List.take_append_drop i t).symm,
      (utf8ByteSize_ofList _).symm.trans hi.symm⟩
  · rintro ⟨s, u, rfl, rfl⟩
    exact ⟨s.length, by rw [List.take_left, utf8ByteSize_ofList]⟩

end Text

namespace Bytewise

/-! ## Cutting at offsets -/

theorem splitAt?_append (u : List Char) : ∀ s : List Char,
    splitAt? (s ++ u) (utf8Length s) = some (s, u)
  | [] => by rw [utf8Length, List.nil_append, splitAt?]
  | c :: s => by
    obtain ⟨n, hn⟩ : ∃ n, utf8Length (c :: s) = n + 1 :=
      Nat.exists_eq_add_one.2 (utf8Length_cons_pos c s)
    have hrest : n + 1 - c.utf8Size = utf8Length s := by
      rw [utf8Length] at hn
      omega
    have hsize : c.utf8Size ≤ n + 1 := by
      rw [utf8Length] at hn
      omega
    rw [hn, List.cons_append, splitAt?, if_pos hsize, hrest, splitAt?_append u s]
    rfl

/-- The first part has as many bytes as the offset says. -/
theorem splitAt?_eq_some_iff {t s u : List Char} {n : Nat} :
    splitAt? t n = some (s, u) ↔ t = s ++ u ∧ utf8Length s = n := by
  constructor
  · intro h
    fun_induction splitAt? t n generalizing s with
    | case1 t =>
      cases h
      exact ⟨rfl, rfl⟩
    | case2 n => cases h
    | case3 n c t hsize ih =>
      obtain ⟨⟨front, rest⟩, hsplit, heq⟩ := Option.map_eq_some_iff.1 h
      cases heq
      obtain ⟨rfl, hn⟩ := ih hsplit
      exact ⟨rfl, by rw [utf8Length]; omega⟩
    | case4 n c t hsize => cases h
  · rintro ⟨rfl, rfl⟩
    exact splitAt?_append u s

theorem slice?_eq_some_iff {t m : List Char} {start stop : Nat} : slice? t start stop = some m ↔
    ∃ s u, t = s ++ (m ++ u) ∧ utf8Length s = start ∧ utf8Length (s ++ m) = stop := by
  rw [slice?, Option.bind_eq_some_iff]
  constructor
  · rintro ⟨⟨front, u⟩, hfront, h⟩
    obtain ⟨⟨s, m'⟩, hs, rfl⟩ := Option.map_eq_some_iff.1 h
    obtain ⟨rfl, hstop⟩ := splitAt?_eq_some_iff.1 hfront
    obtain ⟨rfl, hstart⟩ := splitAt?_eq_some_iff.1 hs
    exact ⟨s, u, List.append_assoc s m' u, hstart, hstop⟩
  · rintro ⟨s, u, rfl, hstart, hstop⟩
    have hfront : splitAt? (s ++ m) start = some (s, m) := splitAt?_eq_some_iff.2 ⟨rfl, hstart⟩
    refine ⟨(s ++ m, u), splitAt?_eq_some_iff.2 ⟨(List.append_assoc s m u).symm, hstop⟩, ?_⟩
    exact Option.map_eq_some_iff.2 ⟨(s, m), hfront, rfl⟩

theorem orFault_eq_pure_iff {α : Type} {f : Fault} {o : Option α} {a : α} :
    orFault f o = pure a ↔ o = some a := by
  cases o with
  | none => exact iff_of_false nofun nofun
  | some b =>
    constructor
    · rintro ⟨⟩
      rfl
    · rintro ⟨⟩
      rfl

theorem minus_eq {m n : Nat} (h : n ≤ m) : minus m n = pure (m - n) :=
  if_pos h

/-- Two places of a text, the first no later than the second. -/
structure InPlace (t : List Char) (start stop : Nat) : Prop where
  ordered : start ≤ stop
  within : stop ≤ utf8Length t
  start_isValid : (⟨start⟩ : String.Pos.Raw).IsValid (String.ofList t)
  stop_isValid : (⟨stop⟩ : String.Pos.Raw).IsValid (String.ofList t)

/-- A cut does not break off exactly if it is made in place. -/
theorem exists_slice_iff {t : List Char} {start stop : Nat} :
    (∃ m, slice t start stop = pure m) ↔ InPlace t start stop := by
  simp only [slice, orFault_eq_pure_iff, slice?_eq_some_iff]
  constructor
  · rintro ⟨m, s, u, rfl, rfl, rfl⟩
    refine ⟨?_, ?_, ?_, ?_⟩
    · rw [utf8Length_append]
      omega
    · simp only [utf8Length_append]
      omega
    · exact isValid_ofList_iff.2 ⟨s, m ++ u, rfl, rfl⟩
    · exact isValid_ofList_iff.2 ⟨s ++ m, u, (List.append_assoc s m u).symm, rfl⟩
  · rintro ⟨hordered, -, hstart, hstop⟩
    obtain ⟨s, v, rfl, rfl⟩ := isValid_ofList_iff.1 hstart
    obtain ⟨front, u, ht, rfl⟩ := isValid_ofList_iff.1 hstop
    -- The shorter of two prefixes begins the longer one.
    obtain ⟨m, rfl⟩ : s <+: front := by
      rcases List.prefix_or_prefix_of_prefix ⟨v, rfl⟩ ⟨u, ht.symm⟩ with h | h
      · exact h
      · have hle := utf8Length_le_of_prefix h
        have heq : front = s :=
          eq_of_prefix_of_utf8Length h List.prefix_rfl (Nat.le_antisymm hle hordered)
        exact heq ▸ List.prefix_rfl
    exact ⟨m, s, u, by rw [ht, List.append_assoc], rfl, rfl⟩

/-- There is no cut within a character. -/
example : slice ['é', '"'] 0 2 = pure ['é'] ∧ slice ['é', '"'] 1 3 = throw .badCut :=
  ⟨rfl, rfl⟩

/-! ## Reading on from a place -/

/-- What stands at an offset of a text: the rest of the text from a place on. -/
def At (t : List Char) (pos : Nat) (rest : List Char) : Prop :=
  ∃ front, t = front ++ rest ∧ utf8Length front = pos

namespace At

variable {t m rest : List Char} {c : Char} {pos : Nat}

theorem start (t : List Char) : At t 0 t :=
  ⟨[], rfl, rfl⟩

theorem append (h : At t pos (m ++ rest)) : At t (pos + utf8Length m) rest := by
  obtain ⟨front, rfl, rfl⟩ := h
  exact ⟨front ++ m, (List.append_assoc front m rest).symm, utf8Length_append front m⟩

theorem cons (h : At t pos (c :: rest)) : At t (pos + c.utf8Size) rest :=
  append (m := [c]) h

theorem utf8Length_eq (h : At t pos rest) : utf8Length t = pos + utf8Length rest := by
  obtain ⟨front, rfl, rfl⟩ := h
  exact utf8Length_append front rest

theorem length_lt_limit (h : At t pos rest) : rest.length < limit t := by
  obtain ⟨front, rfl, rfl⟩ := h
  rw [limit, List.length_append]
  omega

theorem slice (h : At t pos (m ++ rest)) : slice t pos (pos + utf8Length m) = pure m := by
  obtain ⟨front, rfl, rfl⟩ := h
  exact orFault_eq_pure_iff.2
    (slice?_eq_some_iff.2 ⟨front, rest, rfl, rfl, utf8Length_append front m⟩)

theorem remaining (h : At t pos rest) : remaining t pos = pure rest := by
  rw [Bytewise.remaining, h.utf8Length_eq]
  exact slice (by rwa [List.append_nil])

end At

end Bytewise

end JsonTemplate
