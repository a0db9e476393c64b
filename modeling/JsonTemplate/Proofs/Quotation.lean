import JsonTemplate.Proofs.Bits
import JsonTemplate.Proofs.Parts

/-!
# The quotes of a JSON text

A character of a JSON text stands outside the strings, or in one. Backslashes, the signs of
directives and closing round brackets stand in strings only, and no `+` follows a string
(`lawful_of_read`). That is so as well when parts of the text have been replaced by placeholders of
blocks, each of which leads into a string: `Bit`s are the characters and the placeholders.
-/

namespace JsonTemplate

open Text Json Json.ReaderState

/-- Where a text stands among its quotes. -/
inductive Spot
  | outside
  /-- After a string, blanks aside. -/
  | past
  | within
  /-- Within a string, after a backslash. -/
  | escaped
  deriving DecidableEq

namespace Spot

def next : Spot → Char → Spot
  | .outside, c => if c = '"' then .within else .outside
  | .past, c => if c = '"' then .within else if isJsonBlank c then .past else .outside
  | .within, c => if c = '"' then .past else if c = '\\' then .escaped else .within
  | .escaped, _ => .within

/-- Where a text goes on from a spot. -/
def after (s : Spot) (t : List Char) : Spot :=
  t.foldl next s

/-- The character may stand there in a JSON text. -/
def Admits : Spot → Char → Prop
  | .outside, c => c ≠ '\\' ∧ c ≠ ')' ∧ c ≠ '@'
  | .past, c => c ≠ '\\' ∧ c ≠ ')' ∧ c ≠ '@' ∧ c ≠ '+'
  | .within, _ => True
  | .escaped, c => c ≠ '[' ∧ c ≠ ')' ∧ c ≠ '@'

def IsClosed (s : Spot) : Prop :=
  s = .outside ∨ s = .past

instance : DecidablePred IsClosed :=
  fun s => inferInstanceAs (Decidable (s = .outside ∨ s = .past))

/-- A closing bracket, or the sign of a directive, is within a string. -/
theorem Admits.eq_within {s : Spot} {c : Char} (h : s.Admits c) (hc : c = ')' ∨ c = '@') :
    s = .within := by
  cases s with
  | within => rfl
  | outside => rcases hc with rfl | rfl <;> simp [Admits] at h
  | past => rcases hc with rfl | rfl <;> simp [Admits] at h
  | escaped => rcases hc with rfl | rfl <;> simp [Admits] at h

theorem next_within {c : Char} (hquote : c ≠ '"') (hslash : c ≠ '\\') :
    Spot.within.next c = .within := by
  rw [next, if_neg hquote, if_neg hslash]

theorem IsClosed.next {s : Spot} (h : s.IsClosed) {c : Char} (hc : c ≠ '"') :
    (s.next c).IsClosed := by
  rcases h with rfl | rfl
  · exact .inl (by rw [Spot.next, if_neg hc])
  · rw [Spot.next, if_neg hc]
    split
    · exact .inr rfl
    · exact .inl rfl

theorem IsClosed.next_quote {s : Spot} (h : s.IsClosed) : s.next '"' = .within := by
  rcases h with rfl | rfl <;> rfl

theorem IsClosed.after {s : Spot} (h : s.IsClosed) : ∀ {t : List Char}, '"' ∉ t →
    (s.after t).IsClosed
  | [], _ => h
  | c :: t, ht => by
    rw [List.mem_cons, not_or] at ht
    exact IsClosed.after (h.next (Ne.symm ht.1)) ht.2

/-- It does not matter for what follows whether a string has come before. -/
theorem IsClosed.after_congr {s s' : Spot} (h : s.IsClosed) (h' : s'.IsClosed) :
    ∀ t : List Char, (s.after t).IsClosed ↔ (s'.after t).IsClosed
  | [] => iff_of_true h h'
  | c :: t => by
    rw [Spot.after, Spot.after, List.foldl_cons, List.foldl_cons]
    by_cases hc : c = '"'
    · rw [hc, h.next_quote, h'.next_quote]
    · exact IsClosed.after_congr (h.next hc) (h'.next hc) t

theorem IsClosed.admits {s : Spot} (h : s.IsClosed) {c : Char} (hc : s.Admits c) :
    c ≠ '\\' ∧ c ≠ ')' ∧ c ≠ '@' := by
  rcases h with rfl | rfl
  · exact hc
  · exact ⟨hc.1, hc.2.1, hc.2.2.1⟩

end Spot

/-- The text does not end within a string. -/
def EndsOutside (t : List Char) : Prop :=
  (Spot.outside.after t).IsClosed

instance : DecidablePred EndsOutside :=
  fun t => inferInstanceAs (Decidable (Spot.outside.after t).IsClosed)

namespace Bit

/-- Where the text goes on: after a block within a string, as the text did after its mark. -/
def after (s : Spot) : List Bit → Spot
  | [] => s
  | .char c :: bits => after (s.next c) bits
  | .block _ :: bits => after .within bits

/-- Each character may stand where it does. -/
def Sound (s : Spot) : List Bit → Prop
  | [] => True
  | .char c :: bits => s.Admits c ∧ Sound (s.next c) bits
  | .block _ :: bits => s ≠ .escaped ∧ Sound .within bits

/-- All strings are closed in the end. -/
structure Lawful (s : Spot) (bits : List Bit) : Prop where
  sound : Sound s bits
  closed : (after s bits).IsClosed

theorem after_append : ∀ (xs ys : List Bit) (s : Spot), after s (xs ++ ys) = after (after s xs) ys
  | [], _, _ => rfl
  | .char c :: xs, ys, s => after_append xs ys (s.next c)
  | .block _ :: xs, ys, _ => after_append xs ys .within

theorem sound_append : ∀ (xs ys : List Bit) (s : Spot),
    Sound s (xs ++ ys) ↔ Sound s xs ∧ Sound (after s xs) ys
  | [], _, _ => by simp [Sound, after]
  | .char c :: xs, ys, s => by
    rw [List.cons_append, Sound, Sound, after, sound_append xs ys (s.next c), and_assoc]
  | .block _ :: xs, ys, s => by
    rw [List.cons_append, Sound, Sound, after, sound_append xs ys .within, and_assoc]

theorem lawful_append {xs ys : List Bit} {s : Spot} :
    Lawful s (xs ++ ys) ↔ Sound s xs ∧ Lawful (after s xs) ys := by
  constructor
  · rintro ⟨hsound, hclosed⟩
    rw [sound_append] at hsound
    rw [after_append] at hclosed
    exact ⟨hsound.1, hsound.2, hclosed⟩
  · rintro ⟨hxs, hsound, hclosed⟩
    exact ⟨(sound_append xs ys s).2 ⟨hxs, hsound⟩, by rwa [after_append]⟩

theorem Lawful.char {s : Spot} {c : Char} {bits : List Bit} (h : Lawful s (.char c :: bits)) :
    s.Admits c ∧ Lawful (s.next c) bits :=
  ⟨h.sound.1, h.sound.2, h.closed⟩

theorem Lawful.block {s : Spot} {n : Nat} {bits : List Bit} (h : Lawful s (.block n :: bits)) :
    s ≠ .escaped ∧ Lawful .within bits :=
  ⟨h.sound.1, h.sound.2, h.closed⟩

end Bit

/-! ## The reader's spot -/

namespace Json.ReaderState

/-- A word is null or a Boolean, and what is left of it is of small letters. -/
def Spells (s : ReaderState) : Prop :=
  match s.phase with
  | .word rest v => (∀ d ∈ rest, d.isLower = true) ∧ (v = .null ∨ ∃ b, v = .bool b)
  | _ => True

theorem spells_deliver (v : Json) (frames : List Frame) : (deliver v frames).Spells := by
  rcases frames with _ | ⟨_ | _, frames⟩ <;> trivial

theorem spells_startValue {frames : List Frame} {c : Char} {s : ReaderState}
    (hs : startValue frames c = .ok s) : s.Spells := by
  cases starts_of_startValue hs with
  | null => exact ⟨List.all_eq_true.1 rfl, .inl rfl⟩
  | true | false => exact ⟨List.all_eq_true.1 rfl, .inr ⟨_, rfl⟩⟩
  | string | array | object | number => trivial

theorem spells_endString (frames : List Frame) (role : StringRole) (read : List Char) :
    (endString frames role read).Spells := by
  cases role with
  | value => exact spells_deliver _ _
  | key fields => trivial

theorem spells_step {s s' : ReaderState} {c : Char} (h : s.Spells) (hs : s.step c = .ok s') :
    s'.Spells := by
  have hsteps := steps_of_step hs
  clear hs
  induction hsteps with
  | blank => exact h
  | value hs | firstItem hs | nextItem hs => exact spells_startValue hs
  | firstKey | nextKey | colon | itemComma | fieldComma | quoted | digit => trivial
  | noItems | items | noFields | fields | word => exact spells_deliver _ _
  | letter => exact ⟨fun d hd => h.1 d (List.mem_cons_of_mem _ hd), h.2⟩
  | unquote => exact spells_endString _ _ _
  | number _ _ _ ih => exact ih (spells_deliver _ _)

/-- A character that stands in no JSON text outside the strings. -/
def Stray (c : Char) : Prop :=
  c = '\\' ∨ c = ')' ∨ c = '@' ∨ c = '_'

theorem afterValue_deliver_stray {c : Char} (hc : Stray c) (v : Json) (frames : List Frame) :
    ((deliver v frames).afterValue c).toOption = none := by
  rcases frames with _ | ⟨_ | _, frames⟩ <;> rcases hc with rfl | rfl | rfl | rfl <;> rfl

theorem step_number_stray {c : Char} (hc : Stray c) (draft : NumberDraft) :
    ∀ d, draft.step c ≠ .more d := by
  intro d
  have hd : c.isDigit = false := by rcases hc with rfl | rfl | rfl | rfl <;> rfl
  have hleave : ∀ (e : NumberDraft) b, e.leave b c = .finished := by
    intro e b
    rcases hc with rfl | rfl | rfl | rfl <;> simp [NumberDraft.leave, NumberDraft.isMark]
  have hsign : c ≠ '+' ∧ c ≠ '-' := by rcases hc with rfl | rfl | rfl | rfl <;> decide
  unfold NumberDraft.step
  cases draft.part <;> simp [hd, hleave, hsign]

theorem step_stray {s : ReaderState} (hs : s.IsBetween) (hspells : s.Spells) {c : Char}
    (hc : Stray c) : (s.step c).toOption = none := by
  obtain ⟨frames, phase⟩ := s
  cases phase with
  | string role read part => exact hs.elim
  | word rest v =>
    cases rest with
    | nil => exact absurd rfl hs.1
    | cons d rest =>
      have hd : c ≠ d := by
        rintro rfl
        have := hspells.1 c List.mem_cons_self
        revert this
        rcases hc with rfl | rfl | rfl | rfl <;> decide
      simp only [step, ne_eq, hd, not_false_eq_true, if_true]
      rfl
  | number draft =>
    simp only [step]
    split
    · rename_i d hd
      exact absurd hd (step_number_stray hc draft d)
    · rfl
    · split
      · exact afterValue_deliver_stray hc _ _
      · rfl
  | _ => rcases hc with rfl | rfl | rfl | rfl <;> rfl

/-- The reader is where a text is at a spot. -/
def Stands (s : ReaderState) : Spot → Prop
  | .outside => s.IsBetween ∧ s.Spells
  | .past => ∃ frames role read, s = endString frames role read
  | .within => ∃ frames role read part,
    s = ⟨frames, .string role read part⟩ ∧ isEscaping part = false
  | .escaped => ∃ frames role read part,
    s = ⟨frames, .string role read part⟩ ∧ isEscaping part = true

theorem Stands.between {s : ReaderState} {spot : Spot} (h : s.Stands spot) (hspot : spot.IsClosed) :
    s.IsBetween ∧ s.Spells := by
  rcases hspot with rfl | rfl
  · exact h
  · obtain ⟨frames, role, read, rfl⟩ := h
    exact ⟨isBetween_endString frames role read, spells_endString frames role read⟩

/-- After a string blanks are passed over, and a quote or a `+` is refused. -/
theorem step_endString (frames : List Frame) (role : StringRole) (read : List Char) :
    (∀ c, isJsonBlank c = true →
        (endString frames role read).step c = .ok (endString frames role read))
      ∧ ∀ c, c = '"' ∨ c = '+' → ((endString frames role read).step c).toOption = none := by
  constructor
  · intro c hc
    cases role with
    | value =>
      rcases frames with _ | ⟨_ | _, frames⟩ <;>
        simp [endString, deliver, step, afterValue, hc]
    | key fields => simp [endString, step, hc]
  · rintro c (rfl | rfl) <;> cases role with
    | value => rcases frames with _ | ⟨_ | _, frames⟩ <;> rfl
    | key fields => rfl

theorem Stands.step_closed {s s' : ReaderState} {spot : Spot} {c : Char} (h : s.Stands spot)
    (hspot : spot.IsClosed) (hs : s.step c = .ok s') :
    spot.Admits c ∧ s'.Stands (spot.next c) := by
  obtain ⟨hbetween, hspells⟩ := h.between hspot
  have hok : (s.step c).toOption = some s' := by rw [hs]; rfl
  have hstray : ¬ Stray c := fun hc => by
    rw [step_stray hbetween hspells hc] at hok
    cases hok
  have hadmits : c ≠ '\\' ∧ c ≠ ')' ∧ c ≠ '@' :=
    ⟨fun hc => hstray (.inl hc), fun hc => hstray (.inr (.inl hc)),
      fun hc => hstray (.inr (.inr (.inl hc)))⟩
  by_cases hquote : c = '"'
  · subst hquote
    rcases hspot with rfl | rfl
    · refine ⟨hadmits, ?_⟩
      rw [step_quote hbetween] at hok
      obtain ⟨⟨frames, role⟩, -, rfl⟩ := Option.map_eq_some_iff.1 hok
      exact ⟨frames, role, [], .plain, rfl, rfl⟩
    · obtain ⟨frames, role, read, rfl⟩ := h
      rw [(step_endString frames role read).2 _ (.inl rfl)] at hok
      cases hok
  · have hnext := isBetween_step hbetween hquote hs
    have hnext' := spells_step hspells hs
    rcases hspot with rfl | rfl
    · refine ⟨hadmits, ?_⟩
      rw [Spot.next, if_neg hquote]
      exact ⟨hnext, hnext'⟩
    · obtain ⟨frames, role, read, rfl⟩ := h
      have hplus : c ≠ '+' := by
        rintro rfl
        rw [(step_endString frames role read).2 _ (.inr rfl)] at hok
        cases hok
      refine ⟨⟨hadmits.1, hadmits.2.1, hadmits.2.2, hplus⟩, ?_⟩
      rw [Spot.next, if_neg hquote]
      split
      · rename_i hblank
        rw [(step_endString frames role read).1 c hblank] at hs
        cases hs
        exact ⟨frames, role, read, rfl⟩
      · exact ⟨hnext, hnext'⟩

/-- Within a string a backslash escapes the next character, which is none of those that are looked
for. -/
theorem Stands.step_open {frames : List Frame} {role : StringRole} {read : List Char}
    {part : StringPart} {s' : ReaderState} {c : Char}
    (hs : step ⟨frames, .string role read part⟩ c = .ok s') {spot : Spot}
    (hspot : spot = if isEscaping part then .escaped else .within) :
    spot.Admits c ∧ s'.Stands (spot.next c) := by
  have hok : (step ⟨frames, .string role read part⟩ c).toOption = some s' := by rw [hs]; rfl
  rw [step_string] at hok
  by_cases hend : c = '"' ∧ isPlain part = true
  · rw [if_pos hend] at hok
    cases hok
    rw [hspot, isEscaping_eq_false_of_isPlain hend.2, hend.1]
    exact ⟨trivial, frames, role, read, rfl⟩
  · rw [if_neg hend] at hok
    obtain ⟨⟨read', part'⟩, hstring, rfl⟩ := Option.map_eq_some_iff.1 hok
    have hstring := eq_ok_of_toOption hstring
    have hescaping := isEscaping_stringStep hstring
    cases hesc : isEscaping part with
    | true =>
      rw [hesc] at hspot hescaping
      subst hspot
      refine ⟨?_, frames, role, read', part', rfl, by simpa using hescaping⟩
      have hne : ∀ d, d = '[' ∨ d = ')' ∨ d = '@' → c ≠ d := by
        rintro d hd rfl
        cases part with
        | backslash => rcases hd with rfl | rfl | rfl <;> cases hstring
        | pairLetter high => rcases hd with rfl | rfl | rfl <;> cases hstring
        | plain | hex | pairBackslash => cases hesc
      exact ⟨hne _ (.inl rfl), hne _ (.inr (.inl rfl)), hne _ (.inr (.inr rfl))⟩
    | false =>
      rw [hesc] at hspot hescaping
      subst hspot
      refine ⟨trivial, ?_⟩
      have hquote := ne_quote_of_stringStep hstring hend hesc
      rw [if_neg Bool.false_ne_true, Spot.next, if_neg hquote]
      by_cases hslash : c = '\\'
      · rw [if_pos hslash]
        exact ⟨frames, role, read', part', rfl, by simpa [hslash] using hescaping⟩
      · rw [if_neg hslash]
        exact ⟨frames, role, read', part', rfl, by rw [hescaping]; simpa using hslash⟩

end Json.ReaderState

open Bit

/-- What is read to its end is lawful. -/
theorem lawful_of_readFrom? {v : Json} : ∀ {t : List Char} {s : ReaderState} {spot : Spot},
    readFrom? s t = some v → s.Stands spot → Lawful spot (t.map .char)
  | [], s, spot, h, hstands => by
    refine ⟨trivial, ?_⟩
    cases spot with
    | outside => exact .inl rfl
    | past => exact .inr rfl
    | within | escaped =>
      obtain ⟨frames, role, read, part, rfl, -⟩ := hstands
      cases h
  | c :: t, s, spot, h, hstands => by
    obtain ⟨s', hs, h⟩ := readFrom?_cons_iff.1 h
    have hstep : spot.Admits c ∧ s'.Stands (spot.next c) := by
      cases spot with
      | outside => exact hstands.step_closed (.inl rfl) hs
      | past => exact hstands.step_closed (.inr rfl) hs
      | within | escaped =>
        obtain ⟨frames, role, read, part, rfl, hesc⟩ := hstands
        exact Stands.step_open hs (by rw [hesc]; rfl)
    have hrest := lawful_of_readFrom? h hstep.2
    exact ⟨⟨hstep.1, hrest.sound⟩, hrest.closed⟩

theorem lawful_of_read {t : List Char} {v : Json} (h : Json.read t = .ok v) :
    Lawful .outside (t.map .char) :=
  lawful_of_readFrom? (read_eq_ok_iff.1 h) ⟨isBetween_initial, trivial⟩

end JsonTemplate
