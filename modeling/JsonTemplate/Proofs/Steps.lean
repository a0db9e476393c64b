import JsonTemplate.Json.Reader

/-!
# Steps of the reader

What a character does to the reader, said once (`steps_of_step`), and so for the first character of
a value (`starts_of_startValue`) and for one within a string (`stringSteps_of_stringStep`). What
every step keeps is shown by going through the steps; a number that ends goes on as its value does.
-/

namespace JsonTemplate.Json.ReaderState

open Text

/-! ## The first character of a value -/

/-- What the first character of a value does. -/
inductive Starts (frames : List Frame) : Char → ReaderState → Prop
  | string : Starts frames '"' ⟨frames, .string .value [] .plain⟩
  | array (hdepth : frames.length < depthLimit) : Starts frames '[' ⟨frames, .firstItem⟩
  | object (hdepth : frames.length < depthLimit) : Starts frames '\x7b' ⟨frames, .firstKey⟩
  | null : Starts frames 'n' ⟨frames, .word ['u', 'l', 'l'] .null⟩
  | true : Starts frames 't' ⟨frames, .word ['r', 'u', 'e'] (.bool true)⟩
  | false : Starts frames 'f' ⟨frames, .word ['a', 'l', 's', 'e'] (.bool false)⟩
  | number {c : Char} (hc : c = '-' ∨ c.isDigit) :
    Starts frames c ⟨frames, .number (.start c)⟩

theorem starts_of_startValue {frames : List Frame} {c : Char} {s : ReaderState}
    (h : startValue frames c = .ok s) : Starts frames c s := by
  unfold startValue openContainer at h
  split at h
  · cases h
    subst c
    exact .string
  split at h
  · subst c
    split at h
    · cases h
    · cases h
      exact .array (Nat.lt_of_not_le ‹_›)
  split at h
  · subst c
    split at h
    · cases h
    · cases h
      exact .object (Nat.lt_of_not_le ‹_›)
  split at h
  · cases h
    subst c
    exact .null
  split at h
  · cases h
    subst c
    exact .true
  split at h
  · cases h
    subst c
    exact .false
  split at h
  · cases h
    exact .number ‹_›
  · cases h

/-! ## A character within a string -/

/-- What a character within a string does, other than the quote that ends it: to the characters
read, and to the place in the string. -/
inductive StringSteps (read : List Char) : StringPart → Char → List Char → StringPart → Prop
  | plain {c : Char} (hc : c ≠ '\\') (hprint : ¬ c < ' ') :
    StringSteps read .plain c (c :: read) .plain
  | backslash : StringSteps read .plain '\\' read .backslash
  | escaped {c d : Char} (hc : unescape? c = some d) :
    StringSteps read .backslash c (d :: read) .plain
  | code : StringSteps read .backslash 'u' read (.hex none 0 0)
  | digit {high : Option Nat} {count value d : Nat} {c : Char} (hc : hexValue? c = some d)
    (hcount : count ≠ 3) :
    StringSteps read (.hex high count value) c read (.hex high (count + 1) (16 * value + d))
  /-- The last digit of a character. -/
  | char {value d : Nat} {c : Char} (hc : hexValue? c = some d)
    (hvalue : ¬ (0xD800 ≤ 16 * value + d ∧ 16 * value + d ≤ 0xDFFF)) :
    StringSteps read (.hex none 3 value) c (Char.ofNat (16 * value + d) :: read) .plain
  /-- The last digit of a high surrogate. -/
  | high {value d : Nat} {c : Char} (hc : hexValue? c = some d)
    (hvalue : 0xD800 ≤ 16 * value + d ∧ 16 * value + d ≤ 0xDBFF) :
    StringSteps read (.hex none 3 value) c read (.pairBackslash (16 * value + d))
  /-- The last digit of a low surrogate. -/
  | low {high value d : Nat} {c : Char} (hc : hexValue? c = some d)
    (hvalue : 0xDC00 ≤ 16 * value + d ∧ 16 * value + d ≤ 0xDFFF) :
    StringSteps read (.hex (some high) 3 value) c (pairChar high (16 * value + d) :: read) .plain
  | pairBackslash {high : Nat} :
    StringSteps read (.pairBackslash high) '\\' read (.pairLetter high)
  | pairLetter {high : Nat} : StringSteps read (.pairLetter high) 'u' read (.hex (some high) 0 0)

/-- A character that is no hexadecimal digit is not read as one. -/
theorem ne_of_hexValue? {c e : Char} {d : Nat} (he : hexValue? e = none)
    (hc : hexValue? c = some d) : c ≠ e := by
  rintro rfl
  rw [he] at hc
  cases hc

theorem stringSteps_of_lastDigit {high : Option Nat} {value d : Nat} {c : Char}
    {read read' : List Char} {part' : StringPart} (hc : hexValue? c = some d)
    (h : endHex high (16 * value + d) read = .ok (read', part')) :
    StringSteps read (.hex high 3 value) c read' part' := by
  unfold endHex at h
  cases high with
  | some high =>
    simp only at h
    split at h
    · cases h
      exact .low hc ‹_›
    · cases h
  | none =>
    simp only at h
    split at h
    · cases h
    split at h
    · cases h
      exact .high hc ‹_›
    · cases h
      exact .char hc (by omega)

theorem stringSteps_of_stringStep {read read' : List Char} {part part' : StringPart} {c : Char}
    (h : stringStep read part c = .ok (read', part')) : StringSteps read part c read' part' := by
  cases part with
  | plain =>
    simp only [stringStep] at h
    split at h
    · cases h
      subst c
      exact .backslash
    split at h
    · cases h
    · cases h
      exact .plain ‹_› ‹_›
  | backslash =>
    simp only [stringStep] at h
    split at h
    · cases h
      subst c
      exact .code
    split at h
    · cases h
      exact .escaped ‹_›
    · cases h
  | hex high count value =>
    simp only [stringStep] at h
    split at h
    · cases h
    split at h
    · subst count
      exact stringSteps_of_lastDigit ‹_› h
    · cases h
      exact .digit ‹_› ‹_›
  | pairBackslash high =>
    simp only [stringStep] at h
    split at h
    · cases h
      subst c
      exact .pairBackslash
    · cases h
  | pairLetter high =>
    simp only [stringStep] at h
    split at h
    · cases h
      subst c
      exact .pairLetter
    · cases h

/-! ## Steps -/

/-- What a character does to the reader. -/
inductive Steps : ReaderState → Char → ReaderState → Prop
  /-- A blank between tokens. -/
  | blank {s : ReaderState} {c : Char} (hc : isJsonBlank c = true) : Steps s c s
  | value {frames : List Frame} {c : Char} {s : ReaderState} (hs : startValue frames c = .ok s) :
    Steps ⟨frames, .value⟩ c s
  | firstItem {frames : List Frame} {c : Char} {s : ReaderState}
    (hs : startValue (.array [] :: frames) c = .ok s) : Steps ⟨frames, .firstItem⟩ c s
  | nextItem {frames : List Frame} {items : List Json} {c : Char} {s : ReaderState}
    (hs : startValue (.array items :: frames) c = .ok s) : Steps ⟨frames, .nextItem items⟩ c s
  | firstKey {frames : List Frame} :
    Steps ⟨frames, .firstKey⟩ '"' ⟨frames, .string (.key []) [] .plain⟩
  | nextKey {frames : List Frame} {fields : Fields} :
    Steps ⟨frames, .nextKey fields⟩ '"' ⟨frames, .string (.key fields) [] .plain⟩
  | colon {frames : List Frame} {fields : Fields} {key : String} :
    Steps ⟨frames, .colon fields key⟩ ':' ⟨.object fields key :: frames, .value⟩
  | itemComma {frames : List Frame} {items : List Json} :
    Steps ⟨frames, .afterItem items⟩ ',' ⟨frames, .nextItem items⟩
  | fieldComma {frames : List Frame} {fields : Fields} :
    Steps ⟨frames, .afterField fields⟩ ',' ⟨frames, .nextKey fields⟩
  | noItems {frames : List Frame} : Steps ⟨frames, .firstItem⟩ ']' (deliver (.array []) frames)
  | items {frames : List Frame} {items : List Json} :
    Steps ⟨frames, .afterItem items⟩ ']' (deliver (.array items.reverse) frames)
  | noFields {frames : List Frame} : Steps ⟨frames, .firstKey⟩ '\x7d' (deliver (.object []) frames)
  | fields {frames : List Frame} {fields : Fields} :
    Steps ⟨frames, .afterField fields⟩ '\x7d' (deliver (.object fields) frames)
  | letter {frames : List Frame} {c : Char} {rest : List Char} {v : Json} (hrest : rest ≠ []) :
    Steps ⟨frames, .word (c :: rest) v⟩ c ⟨frames, .word rest v⟩
  /-- The last letter of a word. -/
  | word {frames : List Frame} {c : Char} {rest : List Char} {v : Json}
    (hrest : rest = [] ∨ rest = [c]) : Steps ⟨frames, .word rest v⟩ c (deliver v frames)
  | unquote {frames : List Frame} {role : StringRole} {read : List Char} {part : StringPart}
    (hpart : isPlain part = true) :
    Steps ⟨frames, .string role read part⟩ '"' (endString frames role read)
  | quoted {frames : List Frame} {role : StringRole} {read read' : List Char}
    {part part' : StringPart} {c : Char} (hc : ¬ (c = '"' ∧ isPlain part = true))
    (hs : stringStep read part c = .ok (read', part')) :
    Steps ⟨frames, .string role read part⟩ c ⟨frames, .string role read' part'⟩
  | digit {frames : List Frame} {draft draft' : NumberDraft} {c : Char}
    (hdraft : draft.step c = .more draft') :
    Steps ⟨frames, .number draft⟩ c ⟨frames, .number draft'⟩
  /-- A character after a number. -/
  | number {frames : List Frame} {draft : NumberDraft} {n : JsonNumber} {c : Char}
    {s : ReaderState} (hdraft : draft.step c = .finished) (hn : draft.finish = .ok n)
    (hs : Steps (deliver (.number n) frames) c s) : Steps ⟨frames, .number draft⟩ c s

theorem steps_of_afterValue {s s' : ReaderState} {c : Char} (h : s.afterValue c = .ok s') :
    Steps s c s' := by
  obtain ⟨frames, phase⟩ := s
  unfold afterValue at h
  split at h
  · cases h
    exact .blank ‹_›
  · split at h
    · rename_i items heq
      obtain rfl : phase = .afterItem items := heq
      split at h
      · cases h
        subst c
        exact .itemComma
      · split at h
        · cases h
          subst c
          exact .items
        · cases h
    · rename_i fields heq
      obtain rfl : phase = .afterField fields := heq
      split at h
      · cases h
        subst c
        exact .fieldComma
      · split at h
        · cases h
          subst c
          exact .fields
        · cases h
    · cases h

theorem steps_of_step {s s' : ReaderState} {c : Char} (h : s.step c = .ok s') : Steps s c s' := by
  obtain ⟨frames, phase⟩ := s
  cases phase with
  | value =>
    simp only [step] at h
    split at h
    · cases h
      exact .blank ‹_›
    · exact .value h
  | firstItem =>
    simp only [step] at h
    split at h
    · cases h
      exact .blank ‹_›
    · split at h
      · cases h
        subst c
        exact .noItems
      · exact .firstItem h
  | nextItem items =>
    simp only [step] at h
    split at h
    · cases h
      exact .blank ‹_›
    · split at h
      · cases h
      · exact .nextItem h
  | firstKey =>
    simp only [step] at h
    split at h
    · cases h
      exact .blank ‹_›
    · split at h
      · cases h
        subst c
        exact .noFields
      · split at h
        · cases h
          subst c
          exact .firstKey
        · cases h
  | nextKey fields =>
    simp only [step] at h
    split at h
    · cases h
      exact .blank ‹_›
    · split at h
      · cases h
      · split at h
        · cases h
          subst c
          exact .nextKey
        · cases h
  | colon fields key =>
    simp only [step] at h
    split at h
    · cases h
      exact .blank ‹_›
    · split at h
      · cases h
        subst c
        exact .colon
      · cases h
  | afterItem items | afterField fields | finished v => exact steps_of_afterValue h
  | word rest v =>
    cases rest with
    | nil =>
      cases h
      exact .word (.inl rfl)
    | cons d rest =>
      simp only [step] at h
      split at h
      · cases h
      · rename_i hd
        obtain rfl : c = d := Decidable.not_not.1 hd
        split at h
        · rename_i hrest
          cases h
          exact .word (.inr (by rw [hrest]))
        · cases h
          exact .letter ‹_›
  | string role read part =>
    simp only [step] at h
    split at h
    · rename_i hend
      cases h
      rw [hend.1]
      exact .unquote hend.2
    · rename_i hend
      split at h
      · cases h
        exact .quoted hend ‹_›
      · cases h
  | number draft =>
    simp only [step] at h
    split at h
    · cases h
      exact .digit ‹_›
    · cases h
    · split at h
      · exact .number ‹_› ‹_› (steps_of_afterValue h)
      · cases h

/-- A text ends after its value, or after the number that it is. -/
theorem close_cases {s : ReaderState} {v : Json} (h : s.close = .ok v) :
    (∃ frames, s = ⟨frames, .finished v⟩)
      ∨ ∃ draft n, s = ⟨[], .number draft⟩ ∧ draft.finish = .ok n ∧ v = .number n := by
  obtain ⟨frames, phase⟩ := s
  cases phase with
  | finished w =>
    cases h
    exact .inl ⟨frames, rfl⟩
  | number draft =>
    simp only [close] at h
    split at h
    · cases h
    · rename_i n hn
      rcases frames with _ | ⟨_ | _, frames⟩ <;> cases h
      exact .inr ⟨draft, n, rfl, hn, rfl⟩
  | _ => cases h

end JsonTemplate.Json.ReaderState
