import JsonTemplate.Proofs.Reinstating
import JsonTemplate.Proofs.Undirected
import Mathlib.Data.List.NodupEquivFin

/-!
# Putting back once

When the expressions of a table are put back into a value, the first string that is the placeholder
of an expression becomes its text, and the expression is gone for the strings after it
(`Placeholders.reinstate_eq_meetAll`). No text that is recorded from a template is a placeholder, so
that putting back a second time changes nothing; and where no placeholder occurs twice, the strings
may be met in any order (`Placeholders.reinstate_oneShot`).
-/

namespace JsonTemplate

open Text Json

/-! ## Filling a value anew -/

namespace Json

/-- The next of the texts takes the place of a string, which stays when there is none left. -/
def takeNext (s : String) : StateM (List String) Json
  | [] => (.string s, [])
  | x :: xs => (.string x, xs)

/-- The value with the given texts for its strings, in document order. -/
def refill (v : Json) (xs : List String) : Json :=
  ((v.traverseStrings takeNext).run xs).1

section Traversal

variable {S : Type} (f : String → StateM S Json)

theorem run_traverseStrings_array (items : List Json) (s : S) :
    ((array items).traverseStrings f).run s
      = (.array ((traverseItems f items).run s).1, ((traverseItems f items).run s).2) :=
  rfl

theorem run_traverseStrings_object (fields : Fields) (s : S) :
    ((object fields).traverseStrings f).run s
      = (.object ((traverseFields f fields).run s).1, ((traverseFields f fields).run s).2) :=
  rfl

theorem run_traverseItems_cons (item : Json) (rest : List Json) (s : S) :
    (traverseItems f (item :: rest)).run s
      = (((item.traverseStrings f).run s).1
          :: ((traverseItems f rest).run ((item.traverseStrings f).run s).2).1,
        ((traverseItems f rest).run ((item.traverseStrings f).run s).2).2) :=
  rfl

theorem run_traverseFields_cons (key : String) (value : Json) (rest : Fields) (s : S) :
    (traverseFields f ((key, value) :: rest)).run s
      = ((key, ((value.traverseStrings f).run s).1)
          :: ((traverseFields f rest).run ((value.traverseStrings f).run s).2).1,
        ((traverseFields f rest).run ((value.traverseStrings f).run s).2).2) :=
  rfl

end Traversal

end Json

namespace Placeholders

/-- What becomes of a string, and the table without its expression. -/
def meet (p : Placeholders) (s : String) : String × Placeholders :=
  (p.textOf s, ((reinstateString s).run p).2)

/-- Meets strings one after the other. -/
def meetAll : List String → Placeholders → List String × Placeholders
  | [], p => ([], p)
  | s :: rest, p => ((p.meet s).1 :: (meetAll rest (p.meet s).2).1, (meetAll rest (p.meet s).2).2)

/-- Meets the strings at the given positions of a list, in the order given. -/
def meetIn : (order : List Nat) → List String → Placeholders → List String × Placeholders
  | [], xs, p => (xs, p)
  | i :: order, xs, p =>
    match xs[i]? with
    | some s => meetIn order (xs.set i (p.meet s).1) (p.meet s).2
    | none => meetIn order xs p

/-- Puts the expressions back into a value whose strings are met in the given order. -/
def reinstateIn (p : Placeholders) (order : List Nat) (v : Json) : Json × Placeholders :=
  (v.refill (meetIn order v.values p).1, (meetIn order v.values p).2)

theorem run_reinstateString_eq_meet (p : Placeholders) (s : String) :
    (reinstateString s).run p = (.string (p.meet s).1, (p.meet s).2) := by
  change reinstateString s p = (.string (p.textOf s), (reinstateString s p).2)
  unfold reinstateString textOf
  cases p.expression? s <;> rfl

theorem meetAll_append : ∀ (xs ys : List String) (p : Placeholders), meetAll (xs ++ ys) p
    = ((meetAll xs p).1 ++ (meetAll ys (meetAll xs p).2).1, (meetAll ys (meetAll xs p).2).2)
  | [], _, _ => rfl
  | s :: xs, ys, p => by
    rw [List.cons_append, meetAll, meetAll_append xs ys (p.meet s).2]
    rfl

mutual

/-- To put back is to meet the values and to fill in what has become of them. -/
theorem run_takeNext_values : ∀ (v : Json) (p : Placeholders) (rest : List String),
    (v.traverseStrings takeNext).run ((meetAll v.values p).1 ++ rest)
        = (((v.traverseStrings reinstateString).run p).1, rest)
      ∧ ((v.traverseStrings reinstateString).run p).2 = (meetAll v.values p).2
  | .null, _, _ | .bool _, _, _ | .number _, _, _ => ⟨rfl, rfl⟩
  | .string s, p, rest => by
    have hrun : ((Json.string s).traverseStrings reinstateString).run p
        = (.string (p.meet s).1, (p.meet s).2) := run_reinstateString_eq_meet p s
    rw [hrun]
    exact ⟨rfl, rfl⟩
  | .array items, p, rest => by
    obtain ⟨hitems, hp⟩ := run_takeNext_valuesOfItems items p rest
    rw [values_array, run_traverseStrings_array, run_traverseStrings_array, hitems]
    exact ⟨rfl, hp⟩
  | .object fields, p, rest => by
    obtain ⟨hfields, hp⟩ := run_takeNext_valuesOfFields fields p rest
    rw [values_object, run_traverseStrings_object, run_traverseStrings_object, hfields]
    exact ⟨rfl, hp⟩

theorem run_takeNext_valuesOfItems : ∀ (items : List Json) (p : Placeholders) (rest : List String),
    (traverseItems takeNext items).run ((meetAll (valuesOfItems items) p).1 ++ rest)
        = (((traverseItems reinstateString items).run p).1, rest)
      ∧ ((traverseItems reinstateString items).run p).2 = (meetAll (valuesOfItems items) p).2
  | [], _, _ => ⟨rfl, rfl⟩
  | item :: more, p, rest => by
    obtain ⟨hitem, hp⟩ := run_takeNext_values item p
      ((meetAll (valuesOfItems more) (meetAll item.values p).2).1 ++ rest)
    obtain ⟨hmore, hp'⟩ := run_takeNext_valuesOfItems more (meetAll item.values p).2 rest
    rw [valuesOfItems_cons, meetAll_append, List.append_assoc, run_traverseItems_cons,
      run_traverseItems_cons, hitem, hmore, hp]
    exact ⟨rfl, hp'⟩

theorem run_takeNext_valuesOfFields : ∀ (fields : Fields) (p : Placeholders) (rest : List String),
    (traverseFields takeNext fields).run ((meetAll (valuesOfFields fields) p).1 ++ rest)
        = (((traverseFields reinstateString fields).run p).1, rest)
      ∧ ((traverseFields reinstateString fields).run p).2 = (meetAll (valuesOfFields fields) p).2
  | [], _, _ => ⟨rfl, rfl⟩
  | (key, value) :: more, p, rest => by
    obtain ⟨hvalue, hp⟩ := run_takeNext_values value p
      ((meetAll (valuesOfFields more) (meetAll value.values p).2).1 ++ rest)
    obtain ⟨hmore, hp'⟩ := run_takeNext_valuesOfFields more (meetAll value.values p).2 rest
    rw [valuesOfFields_cons, meetAll_append, List.append_assoc, run_traverseFields_cons,
      run_traverseFields_cons, hvalue, hmore, hp]
    exact ⟨rfl, hp'⟩

end

/-- To put back is to meet the values in document order and to fill in what becomes of them. -/
theorem reinstate_eq_meetAll (p : Placeholders) (v : Json) :
    p.reinstate v = (v.refill (meetAll v.values p).1, (meetAll v.values p).2) := by
  obtain ⟨hv, hp⟩ := run_takeNext_values v p []
  rw [List.append_nil] at hv
  rw [refill, hv, ← hp]
  rfl

/-! ## Nothing but the strings -/

mutual

theorem run_reinstate_values : ∀ (v : Json) (p : Placeholders),
    ((v.traverseStrings reinstateString).run p).1.values = (meetAll v.values p).1
      ∧ ((v.traverseStrings reinstateString).run p).1.replaceStrings (fun _ => "")
        = v.replaceStrings fun _ => ""
  | .null, _ | .bool _, _ | .number _, _ => ⟨rfl, rfl⟩
  | .string s, p => by
    have hrun : ((Json.string s).traverseStrings reinstateString).run p
        = (.string (p.meet s).1, (p.meet s).2) := run_reinstateString_eq_meet p s
    rw [hrun]
    exact ⟨rfl, rfl⟩
  | .array items, p => by
    obtain ⟨hvalues, hblank⟩ := run_reinstate_valuesOfItems items p
    exact ⟨hvalues, congrArg Json.array hblank⟩
  | .object fields, p => by
    obtain ⟨hvalues, hblank⟩ := run_reinstate_valuesOfFields fields p
    exact ⟨hvalues, congrArg Json.object hblank⟩

theorem run_reinstate_valuesOfItems : ∀ (items : List Json) (p : Placeholders),
    valuesOfItems ((traverseItems reinstateString items).run p).1
        = (meetAll (valuesOfItems items) p).1
      ∧ replaceItems (fun _ => "") ((traverseItems reinstateString items).run p).1
        = replaceItems (fun _ => "") items
  | [], _ => ⟨rfl, rfl⟩
  | item :: more, p => by
    obtain ⟨hitem, hblank⟩ := run_reinstate_values item p
    obtain ⟨hmore, hblanks⟩ := run_reinstate_valuesOfItems more (meetAll item.values p).2
    rw [run_traverseItems_cons, (run_takeNext_values item p []).2]
    refine ⟨?_, by rw [replaceItems, replaceItems, hblank, hblanks]⟩
    rw [valuesOfItems_cons, valuesOfItems_cons, meetAll_append, hitem, hmore]

theorem run_reinstate_valuesOfFields : ∀ (fields : Fields) (p : Placeholders),
    valuesOfFields ((traverseFields reinstateString fields).run p).1
        = (meetAll (valuesOfFields fields) p).1
      ∧ replaceFields (fun _ => "") ((traverseFields reinstateString fields).run p).1
        = replaceFields (fun _ => "") fields
  | [], _ => ⟨rfl, rfl⟩
  | (key, value) :: more, p => by
    obtain ⟨hvalue, hblank⟩ := run_reinstate_values value p
    obtain ⟨hmore, hblanks⟩ := run_reinstate_valuesOfFields more (meetAll value.values p).2
    rw [run_traverseFields_cons, (run_takeNext_values value p []).2]
    refine ⟨?_, by rw [replaceFields, replaceFields, hblank, hblanks]⟩
    rw [valuesOfFields_cons, valuesOfFields_cons, meetAll_append, hvalue, hmore]

end

/-! ## The table that is left -/

/-- The table without the expressions of the given placeholders. -/
def without (p : Placeholders) (seen : List String) : Placeholders :=
  { p with expressions := p.expressions.filter (·.1 ∉ seen) }

theorem without_nil (p : Placeholders) : p.without [] = p := by
  have hall : p.expressions.filter (·.1 ∉ ([] : List String)) = p.expressions :=
    List.filter_eq_self.2 fun _ _ => by simp
  rw [without, hall]

theorem without_without (p : Placeholders) (xs ys : List String) :
    (p.without xs).without ys = p.without (xs ++ ys) := by
  simp only [without, List.filter_filter, List.mem_append, not_or, Bool.decide_and, Bool.and_comm]

theorem without_congr (p : Placeholders) {xs ys : List String} (h : ∀ s, s ∈ xs ↔ s ∈ ys) :
    p.without xs = p.without ys := by
  simp only [without, h]

theorem lookup_filter_notMem (seen : List String) (s : String) : ∀ l : List (String × String),
    (l.filter (·.1 ∉ seen)).lookup s = if s ∈ seen then none else l.lookup s
  | [] => by simp
  | (k, t) :: l => by
    have ih := lookup_filter_notMem seen s l
    by_cases hk : k ∈ seen
    · rw [List.filter_cons_of_neg (by simpa using hk), ih, List.lookup_cons]
      split
      · rfl
      · rename_i hs
        have hne : (s == k) = false := by
          rw [beq_eq_false_iff_ne]
          rintro rfl
          exact hs hk
        rw [hne]
    · rw [List.filter_cons_of_pos (by simpa using hk), List.lookup_cons, List.lookup_cons, ih]
      cases hs : s == k with
      | false => rfl
      | true =>
        obtain rfl := eq_of_beq hs
        simp only [if_neg hk]

theorem expression?_without (p : Placeholders) (seen : List String) (s : String) :
    (p.without seen).expression? s = if s ∈ seen then none else p.expression? s :=
  lookup_filter_notMem seen s p.expressions

/-- A string that was met is no longer in the table, if it was there at all. -/
theorem run_reinstateString_without (p : Placeholders) (s : String) :
    ((reinstateString s).run p).2 = p.without [s] := by
  change (reinstateString s p).2 = p.without [s]
  unfold reinstateString without
  cases h : p.expression? s with
  | some t => simp [bne, beq_eq_decide]
  | none =>
    have hall : p.expressions.filter (·.1 ∉ [s]) = p.expressions := by
      refine List.filter_eq_self.2 fun e he => ?_
      have hne := List.lookup_eq_none_iff.1 h e he
      rw [bne_iff_ne] at hne
      simpa using Ne.symm hne
    rw [hall]

/-- A string that was not met before becomes its text, and then it has been met. -/
theorem meet_without (p : Placeholders) (seen : List String) (s : String) :
    (p.without seen).meet s
      = (if s ∈ seen then s else p.textOf s, p.without (seen ++ [s])) := by
  rw [meet, run_reinstateString_without, without_without, textOf, expression?_without]
  split <;> rfl

/-- Of equal strings the first is the one that is replaced. -/
theorem meetAll_without (p : Placeholders) : ∀ xs seen : List String,
    meetAll xs (p.without seen)
      = (xs.mapIdx fun i s => if s ∈ seen ++ xs.take i then s else p.textOf s,
        p.without (seen ++ xs))
  | [], seen => by
    rw [List.append_nil]
    rfl
  | s :: xs, seen => by
    rw [meetAll, meet_without, meetAll_without p xs (seen ++ [s]), List.mapIdx_cons]
    simp

theorem meetAll_eq (p : Placeholders) (xs : List String) :
    meetAll xs p
      = (xs.mapIdx fun i s => if s ∈ xs.take i then s else p.textOf s, p.without xs) := by
  have h := meetAll_without p xs []
  rwa [without_nil] at h

/-! ## Any order -/

theorem meetIn_range' : ∀ (done rest : List String) (p : Placeholders),
    meetIn (List.range' done.length rest.length) (done ++ rest) p
      = (done ++ (meetAll rest p).1, (meetAll rest p).2)
  | done, [], p => rfl
  | done, s :: rest, p => by
    have hget : (done ++ s :: rest)[done.length]? = some s := by simp
    have hset : (done ++ s :: rest).set done.length (p.meet s).1
        = (done ++ [(p.meet s).1]) ++ rest := by simp
    have hrest := meetIn_range' (done ++ [(p.meet s).1]) rest (p.meet s).2
    rw [List.length_append, List.length_singleton] at hrest
    rw [List.length_cons, List.range'_succ, meetIn, hget]
    dsimp only
    rw [hset, hrest, meetAll]
    simp

/-- In document order one string is met after the other. -/
theorem meetIn_range (xs : List String) (p : Placeholders) :
    meetIn (List.range xs.length) xs p = meetAll xs p := by
  have h := meetIn_range' [] xs p
  rwa [List.length_nil, List.nil_append, ← List.range_eq_range'] at h

theorem textOf_of_none {p : Placeholders} {s : String} (h : p.expression? s = none) :
    p.textOf s = s := by
  rw [textOf, h, Option.getD_none]

/-- A string is met at its place, and the others at theirs. -/
theorem mapIdx_set (p : Placeholders) {order : List Nat} {xs : List String} {i : Nat} {s : String}
    (hs : xs[i]? = some s) (hi : i ∉ order) :
    ((xs.set i (p.textOf s)).mapIdx fun j t => if j ∈ order then p.textOf t else t)
      = xs.mapIdx fun j t => if j ∈ i :: order then p.textOf t else t := by
  obtain ⟨hlt, -⟩ := List.getElem?_eq_some_iff.1 hs
  refine List.ext_getElem? fun j => ?_
  rw [List.getElem?_mapIdx, List.getElem?_mapIdx]
  by_cases hj : j = i
  · subst hj
    rw [List.getElem?_set_self hlt, hs]
    simp [hi]
  · rw [List.getElem?_set_ne (Ne.symm hj)]
    simp [hj]

/-- Strings that occur once, or have no text, are replaced each on its own. -/
theorem meetIn_without (p : Placeholders) : ∀ (order : List Nat) (xs seen : List String),
    order.Nodup → (∀ i ∈ order, i < xs.length) →
    (∀ i ∈ order, ∀ s ∈ seen, xs[i]? = some s → p.expression? s = none) →
    (∀ i ∈ order, ∀ j ∈ order, i ≠ j → ∀ s, xs[i]? = some s → xs[j]? = some s →
      p.expression? s = none) →
    meetIn order xs (p.without seen)
      = (xs.mapIdx fun i s => if i ∈ order then p.textOf s else s,
        p.without (seen ++ order.filterMap (xs[·]?)))
  | [], xs, seen, _, _, _, _ => by
    have hxs : (xs.mapIdx fun i s => if i ∈ ([] : List Nat) then p.textOf s else s) = xs :=
      List.ext_getElem? fun i => by simp
    rw [hxs, List.filterMap_nil, List.append_nil]
    rfl
  | i :: order, xs, seen, hnodup, hvalid, hseen, honce => by
    obtain ⟨hi, hnodup⟩ := List.nodup_cons.1 hnodup
    obtain ⟨s, hs⟩ : ∃ s, xs[i]? = some s :=
      ⟨_, List.getElem?_eq_getElem (hvalid i List.mem_cons_self)⟩
    have hmeet : (p.without seen).meet s = (p.textOf s, p.without (seen ++ [s])) := by
      rw [meet_without]
      split
      · rename_i hmem
        rw [textOf_of_none (hseen i List.mem_cons_self s hmem hs)]
      · rfl
    have hget : ∀ j ∈ order, (xs.set i (p.textOf s))[j]? = xs[j]? := by
      intro j hj
      refine List.getElem?_set_ne ?_
      rintro rfl
      exact hi hj
    have hfilter : order.filterMap ((xs.set i (p.textOf s))[·]?) = order.filterMap (xs[·]?) :=
      List.filterMap_congr hget
    have hrest := meetIn_without p order (xs.set i (p.textOf s)) (seen ++ [s]) hnodup
      (fun j hj => by simpa using hvalid j (List.mem_cons_of_mem i hj))
      (fun j hj t ht hjt => by
        rw [hget j hj] at hjt
        have hj' := List.mem_cons_of_mem i hj
        rcases List.mem_append.1 ht with ht | ht
        · exact hseen j hj' t ht hjt
        · rw [List.mem_singleton.1 ht] at hjt ⊢
          exact honce i List.mem_cons_self j hj' (fun hij => hi (hij.symm ▸ hj)) s hs hjt)
      (fun j hj k hk hjk t hjt hkt => by
        rw [hget j hj] at hjt
        rw [hget k hk] at hkt
        exact honce j (List.mem_cons_of_mem i hj) k (List.mem_cons_of_mem i hk) hjk t hjt hkt)
    rw [meetIn, hs]
    dsimp only
    rw [hmeet, hrest, hfilter, mapIdx_set p hs hi, List.filterMap_cons, hs, List.append_assoc]
    rfl

theorem not_lt_of_count_le_one {xs : List String} {s : String} (h : xs.count s ≤ 1) {i j : Nat}
    (hi : xs[i]? = some s) (hj : xs[j]? = some s) : ¬ i < j := by
  intro hij
  obtain ⟨hilen, his⟩ := List.getElem?_eq_some_iff.1 hi
  obtain ⟨hjlen, hjs⟩ := List.getElem?_eq_some_iff.1 hj
  have hdup : List.Duplicate s xs :=
    List.duplicate_iff_exists_distinct_get.2 ⟨⟨i, hilen⟩, ⟨j, hjlen⟩, hij, his.symm, hjs.symm⟩
  have htwice := List.duplicate_iff_two_le_count.1 hdup
  omega

/-- Where no placeholder of an expression occurs twice, any order will do. -/
theorem meetIn_perm (p : Placeholders) {xs : List String}
    (h : ∀ s, (p.expression? s).isSome → xs.count s ≤ 1) {order : List Nat}
    (horder : order.Perm (List.range xs.length)) :
    meetIn order xs p = (xs.map p.textOf, p.without xs) := by
  have hvalid : ∀ i, i ∈ order ↔ i < xs.length := fun i => by
    rw [horder.mem_iff, List.mem_range]
  have honce : ∀ i ∈ order, ∀ j ∈ order, i ≠ j → ∀ s, xs[i]? = some s → xs[j]? = some s →
      p.expression? s = none := by
    intro i _ j _ hij s hi hj
    by_contra hne
    have hcount := h s (Option.ne_none_iff_isSome.1 hne)
    rcases Nat.lt_or_gt_of_ne hij with hlt | hlt
    · exact not_lt_of_count_le_one hcount hi hj hlt
    · exact not_lt_of_count_le_one hcount hj hi hlt
  have hmeet := meetIn_without p order xs [] (horder.nodup_iff.2 List.nodup_range)
    (fun i => (hvalid i).1) nofun honce
  have hmap : (xs.mapIdx fun i s => if i ∈ order then p.textOf s else s) = xs.map p.textOf := by
    refine List.ext_getElem (by simp) fun i hi _ => ?_
    simp [(hvalid i).2 (by simpa using hi)]
  have hmem : ∀ s, s ∈ order.filterMap (xs[·]?) ↔ s ∈ xs := by
    intro s
    rw [List.mem_filterMap, List.mem_iff_getElem?]
    constructor
    · rintro ⟨i, -, hi⟩
      exact ⟨i, hi⟩
    · rintro ⟨i, hi⟩
      exact ⟨i, (hvalid i).2 (List.getElem?_eq_some_iff.1 hi).1, hi⟩
  rw [without_nil, hmap] at hmeet
  rw [hmeet, List.nil_append, without_congr p hmem]

/-! ## The tables of templates -/

/-- What a table can be after templates have been made plain JSON, and after values have had their
expressions put back in between. -/
inductive Scanned : Placeholders → Prop
  | empty : Scanned {}
  | scan {p : Placeholders} (hp : Scanned p) (t : List Char) : Scanned (toPlainJson t p).2
  | reinstate {p : Placeholders} (hp : Scanned p) (v : Json) : Scanned (p.reinstate v).2

theorem values_reinstate (p : Placeholders) (v : Json) : (p.reinstate v).1.values
    = v.values.mapIdx fun i s => if s ∈ v.values.take i then s else p.textOf s := by
  have hvalues := (run_reinstate_values v p).1
  rwa [meetAll_eq] at hvalues

theorem reinstate_eq_without (p : Placeholders) (v : Json) :
    (p.reinstate v).2 = p.without v.values := by
  rw [reinstate_eq_meetAll, meetAll_eq]

theorem Signed.without {p : Placeholders} (hp : p.Signed) (seen : List String) :
    (p.without seen).Signed :=
  fun e he => hp e (List.mem_filter.1 he).1

namespace Scanned

variable {p : Placeholders}

theorem wellFormed (hp : p.Scanned) : p.WellFormed := by
  induction hp with
  | empty => exact wellFormed_empty
  | scan _ t ih => exact (ih.extract t).quoteChains _
  | reinstate _ v ih => exact ih.reinstate v

/-- Every text that is recorded from a template has the sign of a directive. -/
theorem signed (hp : p.Scanned) : p.Signed := by
  induction hp with
  | empty => exact nofun
  | scan _ t ih => exact ih.toPlainJson t
  | @reinstate p _ v ih =>
    rw [reinstate_eq_without]
    exact ih.without v.values

/-- No text that was recorded looks like the placeholder of an expression. -/
theorem ne_ofExpression (hp : p.Scanned) {x t : String} (h : p.expression? x = some t) (n : Nat) :
    t ≠ Placeholder.ofExpression n := by
  rintro rfl
  exact absurd (Placeholder.isNameChar_of_mem_ofExpression (hp.signed.sign_mem h)) (by decide)

/-- Only the placeholders of expressions have a text. -/
theorem expression?_eq_none (hp : p.Scanned) {s : String}
    (h : ∀ n, s ≠ Placeholder.ofExpression n) : p.expression? s = none := by
  refine List.lookup_eq_none_iff.2 fun e he => ?_
  obtain ⟨n, -, hn⟩ := hp.wellFormed.placeholder e he
  rw [bne_iff_ne, hn]
  exact h n

/-- No string that is there after putting back has a text in the table that is left. -/
theorem expression?_of_mem_values (hp : p.Scanned) {v : Json} {s : String}
    (h : s ∈ (p.reinstate v).1.values) : (p.reinstate v).2.expression? s = none := by
  rw [reinstate_eq_without, expression?_without]
  rw [values_reinstate, List.mem_mapIdx] at h
  obtain ⟨i, hi, hs⟩ := h
  have hmem : v.values[i] ∈ v.values := List.getElem_mem hi
  split
  · rfl
  · rename_i hgone
    split at hs
    · exact absurd (hs ▸ hmem) hgone
    · rw [textOf] at hs
      cases he : p.expression? v.values[i] with
      | none =>
        rw [he, Option.getD_none] at hs
        exact absurd (hs ▸ hmem) hgone
      | some t =>
        rw [he, Option.getD_some] at hs
        exact hs ▸ hp.expression?_eq_none (hp.ne_ofExpression he)

/-- Putting back a second time changes neither the value nor the table. -/
theorem reinstate_reinstate (hp : p.Scanned) (v : Json) :
    (p.reinstate v).2.reinstate (p.reinstate v).1 = p.reinstate v := by
  refine run_traverseStrings_of_fixed (m := Id) _ fun s hs => ?_
  have hnone := hp.expression?_of_mem_values hs
  change reinstateString s (p.reinstate v).2 = (.string s, (p.reinstate v).2)
  rw [reinstateString, hnone]

end Scanned

/-- Putting expressions back into a value replaces, in document order, the first string that is the
placeholder of an expression in the table by its text. All other strings stay, and so does all that
is no string. The expressions whose placeholders were met leave the table, and the others stay. No
text of an expression is a placeholder itself, and putting back again changes nothing. Where the
placeholder of each expression occurs once at most, the strings may be met in any order. -/
theorem reinstate_oneShot {p : Placeholders} (hp : p.Scanned) (v : Json) :
    (p.reinstate v).1.values
        = (v.values.mapIdx fun i s => if s ∈ v.values.take i then s else p.textOf s) ∧
      (p.reinstate v).1.replaceStrings (fun _ => "") = v.replaceStrings (fun _ => "") ∧
      (p.reinstate v).2 = { p with expressions := p.expressions.filter (·.1 ∉ v.values) } ∧
      (∀ x t, p.expression? x = some t → ∀ n, t ≠ Placeholder.ofExpression n) ∧
      (p.reinstate v).2.reinstate (p.reinstate v).1 = p.reinstate v ∧
      ((∀ x, (p.expression? x).isSome → v.values.count x ≤ 1) →
        ∀ order, order.Perm (List.range v.values.length) →
          p.reinstateIn order v = p.reinstate v) := by
  refine ⟨values_reinstate p v, (run_reinstate_values v p).2, reinstate_eq_without p v,
    fun _ _ => hp.ne_ofExpression, hp.reinstate_reinstate v, fun honce order horder => ?_⟩
  have hmeet : meetIn order v.values p = meetAll v.values p := by
    rw [← meetIn_range, meetIn_perm p honce horder, meetIn_perm p honce (List.Perm.refl _)]
  rw [reinstateIn, hmeet, reinstate_eq_meetAll]

/-- A table of two concatenations. -/
def sums : Placeholders :=
  (toPlainJson "[@a + \"x\", \"b\" + @c]".toList {}).2

/-- One of its placeholders twice, the other for a name. -/
def echo : Json :=
  .array [.string "__EXPR_1__", .object [("__EXPR_0__", .string "__EXPR_1__")]]

/-- Each of its placeholders once. -/
def duet : Json :=
  .object [("__EXPR_0__", .string "__EXPR_1__"), ("x", .array [.null, .string "__EXPR_0__"])]

theorem reinstate_oneShot_echo : sums.Scanned ∧
    (sums.reinstate echo).1.values = ["\"b\" + @c", "__EXPR_1__"] ∧
      (sums.reinstate echo).2.expressions = [("__EXPR_0__", "@a + \"x\"")] ∧
        sums.reinstateIn [1, 0] duet = sums.reinstate duet := by
  have hscanned : sums.Scanned := .scan .empty _
  obtain ⟨hvalues, -, htable, -⟩ := reinstate_oneShot hscanned echo
  obtain ⟨-, -, -, -, -, hany⟩ := reinstate_oneShot hscanned duet
  have honce : ∀ x, duet.values.count x ≤ 1 := List.nodup_iff_count_le_one.1 (by decide +kernel)
  rw [hvalues, htable]
  exact ⟨hscanned, by decide +kernel, by decide +kernel,
    hany (fun x _ => honce x) [1, 0] (by decide +kernel)⟩

end Placeholders

end JsonTemplate
