import JsonTemplate.Proofs.Strings

/-!
# Putting expressions back

The strings are met in document order, and an expression is put back once. Where no placeholder
occurs twice among the values, that is replacing each string on its own (`reinstate_eq`).
-/

namespace JsonTemplate

namespace Json

section Replacing

variable (f : String → String)

mutual

/-- Replaces every string value on its own. -/
def replaceStrings : Json → Json
  | .null => .null
  | .bool b => .bool b
  | .number n => .number n
  | .string s => .string (f s)
  | .array items => .array (replaceItems items)
  | .object fields => .object (replaceFields fields)

def replaceItems : List Json → List Json
  | [] => []
  | item :: rest => replaceStrings item :: replaceItems rest

def replaceFields : Fields → Fields
  | [] => []
  | (key, value) :: rest => (key, replaceStrings value) :: replaceFields rest

end

mutual

theorem values_replaceStrings : ∀ v : Json, (v.replaceStrings f).values = v.values.map f
  | .null | .bool _ | .number _ | .string _ => rfl
  | .array items => by simp [replaceStrings, values_replaceItems items]
  | .object fields => by simp [replaceStrings, values_replaceFields fields]

theorem values_replaceItems : ∀ items : List Json,
    valuesOfItems (replaceItems f items) = (valuesOfItems items).map f
  | [] => rfl
  | item :: rest => by
    simp [replaceItems, values_replaceStrings item, values_replaceItems rest]

theorem values_replaceFields : ∀ fields : Fields,
    valuesOfFields (replaceFields f fields) = (valuesOfFields fields).map f
  | [] => rfl
  | (key, value) :: rest => by
    simp [replaceFields, values_replaceStrings value, values_replaceFields rest]

end

mutual

theorem keys_replaceStrings : ∀ v : Json, (v.replaceStrings f).keys = v.keys
  | .null | .bool _ | .number _ | .string _ => rfl
  | .array items => keys_replaceItems items
  | .object fields => keys_replaceFields fields

theorem keys_replaceItems : ∀ items : List Json,
    keysOfItems (replaceItems f items) = keysOfItems items
  | [] => rfl
  | item :: rest => by
    simp [replaceItems, keys_replaceStrings item, keys_replaceItems rest]

theorem keys_replaceFields : ∀ fields : Fields,
    keysOfFields (replaceFields f fields) = keysOfFields fields
  | [] => rfl
  | (key, value) :: rest => by
    simp [replaceFields, keys_replaceStrings value, keys_replaceFields rest]

end

end Replacing

end Json

namespace Placeholders

/-- What a string stands for: the expression of a placeholder, or else itself. -/
def textOf (p : Placeholders) (s : String) : String :=
  (p.expression? s).getD s

theorem lookup_filter_ne {s x : String} (hx : x ≠ s) : ∀ l : List (String × String),
    (l.filter (·.1 != s)).lookup x = l.lookup x
  | [] => rfl
  | (k, t) :: l => by
    have ih := lookup_filter_ne hx l
    by_cases hk : k = s
    · have hxk : (x == k) = false := by simpa [hk] using hx
      rw [List.lookup_cons, hxk, List.filter_cons_of_neg (by simp [hk]), ih]
    · rw [List.filter_cons_of_pos (by simp [hk]), List.lookup_cons, List.lookup_cons, ih]

/-- The strings that are still to be met stand for what they did at first. -/
def Agrees (p q : Placeholders) (rest : List String) : Prop :=
  ∀ s ∈ rest, q.expression? s = p.expression? s

variable {p : Placeholders}

theorem run_reinstateString {q : Placeholders} {s : String} {rest : List String}
    (hq : p.Agrees q (s :: rest))
    (h : ∀ x, (p.expression? x).isSome → (s :: rest).count x ≤ 1) :
    ((reinstateString s).run q).1 = .string (p.textOf s)
      ∧ p.Agrees ((reinstateString s).run q).2 rest := by
  have hs := hq s List.mem_cons_self
  change (reinstateString s q).1 = _ ∧ p.Agrees (reinstateString s q).2 rest
  unfold reinstateString textOf
  rw [hs]
  cases ht : p.expression? s with
  | none => exact ⟨rfl, fun x hx => hq x (List.mem_cons_of_mem _ hx)⟩
  | some t =>
    refine ⟨rfl, fun x hx => ?_⟩
    have hne : x ≠ s := by
      rintro rfl
      have hcount := h x (by rw [ht]; rfl)
      have hpos := List.count_pos_iff.2 hx
      rw [List.count_cons_self] at hcount
      omega
    rw [← hq x (List.mem_cons_of_mem _ hx)]
    exact lookup_filter_ne hne q.expressions

mutual

theorem run_traverse_reinstate : ∀ (v : Json) {q : Placeholders} {rest : List String},
    p.Agrees q (v.values ++ rest) →
    (∀ x, (p.expression? x).isSome → (v.values ++ rest).count x ≤ 1) →
      ((v.traverseStrings reinstateString).run q).1 = v.replaceStrings p.textOf
        ∧ p.Agrees ((v.traverseStrings reinstateString).run q).2 rest
  | .null, _, _, hq, _ | .bool _, _, _, hq, _ | .number _, _, _, hq, _ => ⟨rfl, hq⟩
  | .string s, _, _, hq, h => run_reinstateString hq h
  | .array items, _, _, hq, h => by
    obtain ⟨hv, hq'⟩ := run_traverse_reinstateItems items hq h
    exact ⟨congrArg Json.array hv, hq'⟩
  | .object fields, _, _, hq, h => by
    obtain ⟨hv, hq'⟩ := run_traverse_reinstateFields fields hq h
    exact ⟨congrArg Json.object hv, hq'⟩

theorem run_traverse_reinstateItems : ∀ (items : List Json) {q : Placeholders}
    {rest : List String}, p.Agrees q (Json.valuesOfItems items ++ rest) →
    (∀ x, (p.expression? x).isSome → (Json.valuesOfItems items ++ rest).count x ≤ 1) →
      ((Json.traverseItems reinstateString items).run q).1 = Json.replaceItems p.textOf items
        ∧ p.Agrees ((Json.traverseItems reinstateString items).run q).2 rest
  | [], _, _, hq, _ => ⟨rfl, hq⟩
  | item :: more, q, rest, hq, h => by
    rw [Json.valuesOfItems_cons, List.append_assoc] at hq h
    obtain ⟨hv, hq'⟩ := run_traverse_reinstate item hq h
    have h' : ∀ x, (p.expression? x).isSome →
        (Json.valuesOfItems more ++ rest).count x ≤ 1 := by
      intro x hx
      have := h x hx
      rw [List.count_append] at this
      omega
    obtain ⟨hvs, hq''⟩ := run_traverse_reinstateItems more hq' h'
    refine ⟨?_, hq''⟩
    rw [Json.replaceItems, ← hv, ← hvs]
    rfl

theorem run_traverse_reinstateFields : ∀ (fields : Json.Fields) {q : Placeholders}
    {rest : List String}, p.Agrees q (Json.valuesOfFields fields ++ rest) →
    (∀ x, (p.expression? x).isSome → (Json.valuesOfFields fields ++ rest).count x ≤ 1) →
      ((Json.traverseFields reinstateString fields).run q).1 = Json.replaceFields p.textOf fields
        ∧ p.Agrees ((Json.traverseFields reinstateString fields).run q).2 rest
  | [], _, _, hq, _ => ⟨rfl, hq⟩
  | (key, value) :: more, q, rest, hq, h => by
    rw [Json.valuesOfFields_cons, List.append_assoc] at hq h
    obtain ⟨hv, hq'⟩ := run_traverse_reinstate value hq h
    have h' : ∀ x, (p.expression? x).isSome →
        (Json.valuesOfFields more ++ rest).count x ≤ 1 := by
      intro x hx
      have := h x hx
      rw [List.count_append] at this
      omega
    obtain ⟨hvs, hq''⟩ := run_traverse_reinstateFields more hq' h'
    refine ⟨?_, hq''⟩
    rw [Json.replaceFields, ← hv, ← hvs]
    rfl

end

/-- Putting back expressions whose placeholders occur once at most. -/
theorem reinstate_eq (p : Placeholders) {v : Json}
    (h : ∀ x, (p.expression? x).isSome → v.values.count x ≤ 1) :
    (p.reinstate v).1 = v.replaceStrings p.textOf := by
  have hsame : p.Agrees p (v.values ++ []) := fun _ _ => rfl
  exact (run_traverse_reinstate v hsame (by simpa using h)).1

end Placeholders

end JsonTemplate
