import Mathlib.Data.List.Forall2
import JsonTemplate.Proofs.Pieces

/-!
# Readings that match

Two values match if they differ in their strings only, and there as a relation allows. A reader
does the same with matching states (`matching_step`), as long as the relation tells equal strings
from different ones on both sides alike: an object's fields are told apart by their names.
-/

namespace JsonTemplate.Json

/-- A relation under which equal strings have equal partners, and different ones different. -/
def OneToOne (R : String → String → Prop) : Prop :=
  ∀ x x' y y', R x x' → R y y' → (x = y ↔ x' = y')

section Values

variable (R : String → String → Prop)

mutual

/-- The values differ in their strings only, and these are related. -/
def Matching : Json → Json → Prop
  | .null, .null => True
  | .bool b, .bool b' => b = b'
  | .number n, .number n' => n = n'
  | .string s, .string s' => R s s'
  | .array items, .array items' => MatchingItems items items'
  | .object fields, .object fields' => MatchingFields fields fields'
  | _, _ => False

def MatchingItems : List Json → List Json → Prop
  | [], [] => True
  | v :: vs, v' :: vs' => Matching v v' ∧ MatchingItems vs vs'
  | _, _ => False

def MatchingFields : Fields → Fields → Prop
  | [], [] => True
  | (key, v) :: fs, (key', v') :: fs' => R key key' ∧ Matching v v' ∧ MatchingFields fs fs'
  | _, _ => False

end

end Values

variable {R : String → String → Prop}

theorem matching_number (n : JsonNumber) : Matching R (.number n) (.number n) :=
  rfl

theorem matching_string {s s' : String} (h : R s s') : Matching R (.string s) (.string s') :=
  h

theorem matching_array {vs vs' : List Json} (h : MatchingItems R vs vs') :
    Matching R (.array vs) (.array vs') :=
  h

theorem matching_object {fs fs' : Fields} (h : MatchingFields R fs fs') :
    Matching R (.object fs) (.object fs') :=
  h

theorem matchingItems_nil : MatchingItems R [] [] :=
  trivial

theorem matchingFields_nil : MatchingFields R [] [] :=
  trivial

theorem MatchingItems.append : ∀ {vs vs' ws ws' : List Json}, MatchingItems R vs vs' →
    MatchingItems R ws ws' → MatchingItems R (vs ++ ws) (vs' ++ ws')
  | [], [], _, _, _, hw => hw
  | _ :: _, _ :: _, _, _, hv, hw => ⟨hv.1, hv.2.append hw⟩

theorem MatchingItems.reverse : ∀ {vs vs' : List Json}, MatchingItems R vs vs' →
    MatchingItems R vs.reverse vs'.reverse
  | [], [], _ => trivial
  | _ :: _, _ :: _, h => by
    rw [List.reverse_cons, List.reverse_cons]
    exact h.2.reverse.append ⟨h.1, trivial⟩

theorem MatchingFields.insert (hR : OneToOne R) {key key' : String} {v v' : Json}
    (hk : R key key') (hv : Matching R v v') : ∀ {fs fs' : Fields}, MatchingFields R fs fs' →
      MatchingFields R (Fields.insert key v fs) (Fields.insert key' v' fs')
  | [], [], _ => ⟨hk, hv, trivial⟩
  | (k, w) :: fs, (k', w') :: fs', ⟨hk', hw, hfs⟩ => by
    have hiff := hR k k' key key' hk' hk
    by_cases h : k = key
    · simp only [Fields.insert, if_pos h, if_pos (hiff.1 h)]
      exact ⟨hk', hv, hfs⟩
    · simp only [Fields.insert, if_neg h, if_neg (mt hiff.2 h)]
      exact ⟨hk', hw, insert hR hk hv hfs⟩

theorem Matching.firstItem? : ∀ {v v' : Json}, Matching R v v' →
    Option.Rel (Matching R) v.firstItem? v'.firstItem?
  | .array [], .array [], _ => .none
  | .array (_ :: _), .array (_ :: _), h => .some h.1
  | .null, .null, _ | .bool _, .bool _, _ | .number _, .number _, _ | .string _, .string _, _
  | .object _, .object _, _ => .none

namespace ReaderState

variable (R) in
inductive MatchingFrame : Frame → Frame → Prop
  | array {items items' : List Json} (h : MatchingItems R items items') :
    MatchingFrame (.array items) (.array items')
  | object {fields fields' : Fields} {key key' : String} (h : MatchingFields R fields fields')
    (hk : R key key') : MatchingFrame (.object fields key) (.object fields' key')

variable (R) in
/-- Matching phases outside strings. -/
inductive MatchingPhase : Phase → Phase → Prop
  | value : MatchingPhase .value .value
  | firstItem : MatchingPhase .firstItem .firstItem
  | nextItem {items items' : List Json} (h : MatchingItems R items items') :
    MatchingPhase (.nextItem items) (.nextItem items')
  | firstKey : MatchingPhase .firstKey .firstKey
  | nextKey {fields fields' : Fields} (h : MatchingFields R fields fields') :
    MatchingPhase (.nextKey fields) (.nextKey fields')
  | colon {fields fields' : Fields} {key key' : String} (h : MatchingFields R fields fields')
    (hk : R key key') : MatchingPhase (.colon fields key) (.colon fields' key')
  | afterItem {items items' : List Json} (h : MatchingItems R items items') :
    MatchingPhase (.afterItem items) (.afterItem items')
  | afterField {fields fields' : Fields} (h : MatchingFields R fields fields') :
    MatchingPhase (.afterField fields) (.afterField fields')
  | finished {v v' : Json} (h : Matching R v v') : MatchingPhase (.finished v) (.finished v')
  | word (rest : List Char) {v v' : Json} (h : Matching R v v') :
    MatchingPhase (.word rest v) (.word rest v')
  | number (draft : NumberDraft) : MatchingPhase (.number draft) (.number draft)

variable (R) in
structure MatchingState (s s' : ReaderState) : Prop where
  frames : List.Forall₂ (MatchingFrame R) s.frames s'.frames
  phase : MatchingPhase R s.phase s'.phase

theorem matching_deliver (hR : OneToOne R) {v v' : Json} (hv : Matching R v v') :
    ∀ {fs fs' : List Frame}, List.Forall₂ (MatchingFrame R) fs fs' →
      MatchingState R (deliver v fs) (deliver v' fs')
  | _, _, .nil => ⟨.nil, .finished hv⟩
  | _, _, .cons (.array h) hfs => ⟨hfs, .afterItem ⟨hv, h⟩⟩
  | _, _, .cons (.object h hk) hfs => ⟨hfs, .afterField (h.insert hR hk hv)⟩

theorem matching_afterValue (hR : OneToOne R) {s s' : ReaderState} (h : MatchingState R s s')
    (c : Char) :
    Option.Rel (MatchingState R) (s.afterValue c).toOption (s'.afterValue c).toOption := by
  obtain ⟨frames, phase⟩ := s
  obtain ⟨frames', phase'⟩ := s'
  obtain ⟨hf, hp⟩ := h
  unfold afterValue
  by_cases hblank : Text.isJsonBlank c = true
  · rw [if_pos hblank, if_pos hblank]
    exact .some ⟨hf, hp⟩
  rw [if_neg hblank, if_neg hblank]
  cases hp with
  | afterItem h =>
    dsimp only
    split
    · exact .some ⟨hf, .nextItem h⟩
    split
    · exact .some (matching_deliver hR (matching_array h.reverse) hf)
    · exact .none
  | afterField h =>
    dsimp only
    split
    · exact .some ⟨hf, .nextKey h⟩
    split
    · exact .some (matching_deliver hR (matching_object h) hf)
    · exact .none
  | _ => exact .none

theorem matching_startValue {fs fs' : List Frame} (h : List.Forall₂ (MatchingFrame R) fs fs')
    {c : Char} (hc : c ≠ '"') :
    Option.Rel (MatchingState R) (startValue fs c).toOption (startValue fs' c).toOption := by
  unfold startValue openContainer
  rw [if_neg hc, if_neg hc, ← h.length_eq]
  split
  · split
    · exact .none
    · exact .some ⟨h, .firstItem⟩
  split
  · split
    · exact .none
    · exact .some ⟨h, .firstKey⟩
  split
  · exact .some ⟨h, .word _ trivial⟩
  split
  · exact .some ⟨h, .word _ rfl⟩
  split
  · exact .some ⟨h, .word _ rfl⟩
  split
  · exact .some ⟨h, .number _⟩
  · exact .none

/-- Outside strings matching readers do the same. -/
theorem matching_step (hR : OneToOne R) {s s' : ReaderState} (h : MatchingState R s s')
    {c : Char} (hc : c ≠ '"') :
    Option.Rel (MatchingState R) (s.step c).toOption (s'.step c).toOption := by
  obtain ⟨frames, phase⟩ := s
  obtain ⟨frames', phase'⟩ := s'
  have hf := h.frames
  have hp := h.phase
  dsimp only at hf hp
  cases hp with
  | value =>
    simp only [step]
    split
    · exact .some h
    · exact matching_startValue hf hc
  | firstItem =>
    simp only [step]
    split
    · exact .some h
    split
    · exact .some (matching_deliver hR (matching_array matchingItems_nil) hf)
    · exact matching_startValue (.cons (.array matchingItems_nil) hf) hc
  | nextItem hv =>
    simp only [step]
    split
    · exact .some h
    split
    · exact .none
    · exact matching_startValue (.cons (.array hv) hf) hc
  | firstKey =>
    simp only [step, if_neg hc]
    split
    · exact .some h
    split
    · exact .some (matching_deliver hR (matching_object matchingFields_nil) hf)
    · exact .none
  | nextKey hv =>
    simp only [step, if_neg hc]
    split
    · exact .some h
    split <;> exact .none
  | colon hv hk =>
    simp only [step]
    split
    · exact .some h
    split
    · exact .some ⟨.cons (.object hv hk) hf, .value⟩
    · exact .none
  | afterItem hv => exact matching_afterValue hR h c
  | afterField hv => exact matching_afterValue hR h c
  | finished hv => exact matching_afterValue hR h c
  | word rest hv =>
    cases rest with
    | nil => exact .some (matching_deliver hR hv hf)
    | cons d rest =>
      simp only [step]
      split
      · exact .none
      split
      · exact .some (matching_deliver hR hv hf)
      · exact .some ⟨hf, .word _ hv⟩
  | number draft =>
    simp only [step]
    split
    · exact .some ⟨hf, .number _⟩
    · exact .none
    · split
      · exact matching_afterValue hR (matching_deliver hR (matching_number _) hf) c
      · exact .none

theorem matching_takeString? (hR : OneToOne R) {s s' : ReaderState} (h : MatchingState R s s')
    {x x' : String} (hx : R x x') :
    Option.Rel (MatchingState R) (s.takeString? x) (s'.takeString? x') := by
  obtain ⟨frames, phase⟩ := s
  obtain ⟨frames', phase'⟩ := s'
  obtain ⟨hf, hp⟩ := h
  have hend : ∀ y : String, String.ofList y.toList.reverse.reverse = y := by simp
  cases hp with
  | value =>
    refine .some ?_
    simp only [endString, hend]
    exact matching_deliver hR (matching_string hx) hf
  | firstItem =>
    refine .some ?_
    simp only [endString, hend]
    exact matching_deliver hR (matching_string hx) (.cons (.array matchingItems_nil) hf)
  | nextItem hv =>
    refine .some ?_
    simp only [endString, hend]
    exact matching_deliver hR (matching_string hx) (.cons (.array hv) hf)
  | firstKey =>
    refine .some ?_
    simp only [endString, hend]
    exact ⟨hf, .colon matchingFields_nil hx⟩
  | nextKey hv =>
    refine .some ?_
    simp only [endString, hend]
    exact ⟨hf, .colon hv hx⟩
  | _ => exact .none

theorem matching_close {s s' : ReaderState} (h : MatchingState R s s') :
    Option.Rel (Matching R) s.close.toOption s'.close.toOption := by
  obtain ⟨frames, phase⟩ := s
  obtain ⟨frames', phase'⟩ := s'
  obtain ⟨hf, hp⟩ := h
  cases hp with
  | finished hv => exact .some hv
  | number draft =>
    simp only [close]
    split
    · exact .none
    · rename_i n hn
      cases hf with
      | nil => exact .some (matching_number n)
      | cons h _ => cases h <;> exact .none
  | _ => exact .none

end ReaderState

end JsonTemplate.Json

namespace JsonTemplate.Piece

open Json Json.ReaderState

variable {R : String → String → Prop}

/-- The chains of pieces are read as related strings with one table and with another. -/
def MatchingContents (R : String → String → Prop) :
    List Piece → Placeholders → Placeholders → Prop
  | [], _, _ => True
  | .other _ :: rest, p, q => MatchingContents R rest p q
  | .chained chain :: rest, p, q =>
    Option.Rel R (chain.content? p) (chain.content? q)
      ∧ MatchingContents R rest (chain.toPlain p).2 (chain.toPlain q).2

theorem rel_bind {α β γ δ : Type} {r : α → β → Prop} {r' : γ → δ → Prop} {a : Option α}
    {b : Option β} {f : α → Option γ} {g : β → Option δ} (h : Option.Rel r a b)
    (hf : ∀ x y, r x y → Option.Rel r' (f x) (g y)) : Option.Rel r' (a.bind f) (b.bind g) := by
  cases h with
  | none => exact .none
  | some h => exact hf _ _ h

theorem matching_readAll? (hR : OneToOne R) : ∀ {ps : List Piece} {p q : Placeholders}
    {s s' : ReaderState}, MatchingContents R ps p q → MatchingState R s s' →
      (∀ c, .other c ∈ ps → c ≠ '"') →
      Option.Rel (Matching R) (readAll? ps p s) (readAll? ps q s')
  | [], _, _, _, _, _, hs, _ => matching_close hs
  | .other c :: rest, p, q, s, s', hps, hs, hc => by
    refine rel_bind (matching_step hR hs (hc c List.mem_cons_self)) fun t t' ht => ?_
    exact matching_readAll? hR hps ht fun d hd => hc d (List.mem_cons_of_mem _ hd)
  | .chained chain :: rest, p, q, s, s', hps, hs, hc => by
    refine rel_bind hps.1 fun x x' hx => ?_
    refine rel_bind (matching_takeString? hR hs hx) fun t t' ht => ?_
    exact matching_readAll? hR hps.2 ht fun d hd => hc d (List.mem_cons_of_mem _ hd)

end JsonTemplate.Piece
