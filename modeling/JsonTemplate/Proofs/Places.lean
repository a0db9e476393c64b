import JsonTemplate.Proofs.Nesting
import JsonTemplate.Proofs.Reinstating

/-!
# Places

A place is a way into a value, by the items of arrays and the fields of objects. When the strings of
a value are replaced one after the other, what stands at the place of a string is what becomes of
it after the strings before it (`Running.at_place`).
-/

namespace JsonTemplate

namespace Json

/-- A step into a value. -/
inductive Step
  | item (n : Nat)
  | field (key : String)
  deriving DecidableEq

/-- The value at a place. -/
def at? : List Step → Json → Option Json
  | [], v => some v
  | .item n :: place, .array items => items[n]?.bind (at? place)
  | .field key :: place, .object fields => (Fields.get? key fields).bind (at? place)
  | _ :: _, _ => none

/-- The string values before a place, in document order. -/
def valuesBefore : List Step → Json → List String
  | .item n :: place, .array items =>
    valuesOfItems (items.take n) ++ items[n]?.elim [] (valuesBefore place)
  | .field key :: place, .object fields =>
    valuesOfFields (fields.takeWhile (·.1 != key))
      ++ (Fields.get? key fields).elim [] (valuesBefore place)
  | _, _ => []

end Json

open Json

/-- How the computations of a monad run, from a state to a result and a state. -/
structure Running (m : Type → Type) [Monad m] (S : Type) where
  Run : {α : Type} → m α → S → α → S → Prop
  of_pure : ∀ {α : Type} {a b : α} {s s' : S}, Run (pure a) s b s' → b = a ∧ s' = s
  of_bind : ∀ {α β : Type} {x : m α} {k : α → m β} {s s' : S} {b : β}, Run (x >>= k) s b s' →
    ∃ a s₁, Run x s a s₁ ∧ Run (k a) s₁ b s'

namespace Running

variable {m : Type → Type} [Monad m] {S : Type} (r : Running m S) (f : String → m Json)

/-- Strings are met one after the other. -/
inductive Visits : List String → S → S → Prop
  | nil (s : S) : Visits [] s s
  | cons {x : String} {xs : List String} {s s₁ s₂ : S} {v : Json} (h : r.Run (f x) s v s₁)
      (hs : Visits xs s₁ s₂) : Visits (x :: xs) s s₂

variable {r f}

theorem Visits.append {xs ys : List String} {s s₁ s₂ : S} (h : r.Visits f xs s s₁)
    (h' : r.Visits f ys s₁ s₂) : r.Visits f (xs ++ ys) s s₂ := by
  induction h with
  | nil => exact h'
  | cons hx _ ih => exact .cons hx (ih h')

mutual

theorem visits_values : ∀ {v w : Json} {s s' : S}, r.Run (v.traverseStrings f) s w s' →
    r.Visits f v.values s s'
  | .null, _, _, _, h | .bool _, _, _, _, h | .number _, _, _, _, h => by
    obtain ⟨-, rfl⟩ := r.of_pure h
    exact .nil _
  | .string x, _, _, _, h => .cons h (.nil _)
  | .array items, _, _, _, h => by
    obtain ⟨ws, s₁, hitems, hpure⟩ := r.of_bind h
    obtain ⟨-, rfl⟩ := r.of_pure hpure
    exact visits_items hitems
  | .object fields, _, _, _, h => by
    obtain ⟨ws, s₁, hfields, hpure⟩ := r.of_bind h
    obtain ⟨-, rfl⟩ := r.of_pure hpure
    exact visits_fields hfields

theorem visits_items : ∀ {items ws : List Json} {s s' : S},
    r.Run (traverseItems f items) s ws s' → r.Visits f (valuesOfItems items) s s'
  | [], _, _, _, h => by
    obtain ⟨-, rfl⟩ := r.of_pure h
    exact .nil _
  | item :: rest, _, _, _, h => by
    obtain ⟨w, s₁, hitem, h⟩ := r.of_bind h
    obtain ⟨ws, s₂, hrest, hpure⟩ := r.of_bind h
    obtain ⟨-, rfl⟩ := r.of_pure hpure
    exact (visits_values hitem).append (visits_items hrest)

theorem visits_fields : ∀ {fields ws : Fields} {s s' : S},
    r.Run (traverseFields f fields) s ws s' → r.Visits f (valuesOfFields fields) s s'
  | [], _, _, _, h => by
    obtain ⟨-, rfl⟩ := r.of_pure h
    exact .nil _
  | (key, value) :: rest, _, _, _, h => by
    obtain ⟨w, s₁, hvalue, h⟩ := r.of_bind h
    obtain ⟨ws, s₂, hrest, hpure⟩ := r.of_bind h
    obtain ⟨-, rfl⟩ := r.of_pure hpure
    exact (visits_values hvalue).append (visits_fields hrest)

end

theorem at_item : ∀ {items ws : List Json} {n : Nat} {item : Json} {s s' : S},
    items[n]? = some item → r.Run (traverseItems f items) s ws s' →
      ∃ s₁ w s₂, r.Visits f (valuesOfItems (items.take n)) s s₁
        ∧ r.Run (item.traverseStrings f) s₁ w s₂ ∧ ws[n]? = some w
  | [], _, _, _, _, _, h, _ => by simp at h
  | item :: rest, _, 0, _, _, _, h, hrun => by
    cases h
    obtain ⟨w, s₁, hitem, hrun⟩ := r.of_bind hrun
    obtain ⟨ws, s₂, hrest, hpure⟩ := r.of_bind hrun
    obtain ⟨rfl, rfl⟩ := r.of_pure hpure
    exact ⟨_, w, s₁, .nil _, hitem, rfl⟩
  | item :: rest, _, n + 1, _, _, _, h, hrun => by
    obtain ⟨w, s₁, hitem, hrun⟩ := r.of_bind hrun
    obtain ⟨ws, s₂, hrest, hpure⟩ := r.of_bind hrun
    obtain ⟨rfl, rfl⟩ := r.of_pure hpure
    obtain ⟨s₃, w', s₄, hvisits, hrun, hget⟩ := at_item (n := n) h hrest
    exact ⟨s₃, w', s₄, (visits_values hitem).append hvisits, hrun, hget⟩

theorem length_items : ∀ {items ws : List Json} {s s' : S},
    r.Run (traverseItems f items) s ws s' → ws.length = items.length
  | [], _, _, _, h => by
    obtain ⟨rfl, -⟩ := r.of_pure h
    rfl
  | item :: rest, _, _, _, h => by
    obtain ⟨w, s₁, -, h⟩ := r.of_bind h
    obtain ⟨ws, s₂, hrest, hpure⟩ := r.of_bind h
    obtain ⟨rfl, -⟩ := r.of_pure hpure
    rw [List.length_cons, List.length_cons, length_items hrest]

/-- An array stays an array, with as many items. -/
theorem array_items {items : List Json} {w : Json} {s s' : S}
    (h : r.Run ((Json.array items).traverseStrings f) s w s') :
    ∃ ws, w = .array ws ∧ ws.length = items.length := by
  obtain ⟨ws, s₁, hitems, hpure⟩ := r.of_bind h
  obtain ⟨rfl, -⟩ := r.of_pure hpure
  exact ⟨ws, rfl, length_items hitems⟩

theorem at_field {key : String} {value : Json} : ∀ {fields ws : Fields} {s s' : S},
    Fields.get? key fields = some value → r.Run (traverseFields f fields) s ws s' →
      ∃ s₁ w s₂, r.Visits f (valuesOfFields (fields.takeWhile (·.1 != key))) s s₁
        ∧ r.Run (value.traverseStrings f) s₁ w s₂ ∧ Fields.get? key ws = some w
  | [], _, _, _, h, _ => by cases h
  | (k, v) :: rest, _, _, _, h, hrun => by
    obtain ⟨w, s₁, hvalue, hrun⟩ := r.of_bind hrun
    obtain ⟨ws, s₂, hrest, hpure⟩ := r.of_bind hrun
    obtain ⟨rfl, rfl⟩ := r.of_pure hpure
    rw [Fields.get?, List.lookup_cons] at h
    by_cases hk : k = key
    · subst hk
      rw [beq_self_eq_true] at h
      cases h
      refine ⟨_, w, s₁, ?_, hvalue, by simp [Fields.get?]⟩
      rw [List.takeWhile_cons_of_neg (by simp)]
      exact .nil _
    · have hkey : (key == k) = false := by simpa using Ne.symm hk
      rw [hkey] at h
      obtain ⟨s₃, w', s₄, hvisits, hrun, hget⟩ := at_field h hrest
      refine ⟨s₃, w', s₄, ?_, hrun, ?_⟩
      · rw [List.takeWhile_cons_of_pos (by simpa using hk), valuesOfFields_cons]
        exact (visits_values hvalue).append hvisits
      · rw [Fields.get?, List.lookup_cons, hkey]
        exact hget

/-- At the place of a string stands what becomes of it, after the strings before the place. -/
theorem at_place {x : String} : ∀ {place : List Step} {v w : Json} {s s' : S},
    v.at? place = some (.string x) → r.Run (v.traverseStrings f) s w s' →
      ∃ s₁ y s₂, r.Visits f (v.valuesBefore place) s s₁ ∧ r.Run (f x) s₁ y s₂
        ∧ w.at? place = some y
  | [], v, w, s, s', h, hrun => by
    cases h
    exact ⟨s, w, s', .nil s, hrun, rfl⟩
  | .item n :: place, .array items, _, _, _, h, hrun => by
    obtain ⟨item, hitem, h⟩ := Option.bind_eq_some_iff.1 h
    obtain ⟨ws, _, hitems, hpure⟩ := r.of_bind hrun
    obtain ⟨rfl, rfl⟩ := r.of_pure hpure
    obtain ⟨s₁, w, s₂, hbefore, hrun, hget⟩ := at_item hitem hitems
    obtain ⟨s₃, y, s₄, hvisits, hrun, hat⟩ := at_place h hrun
    refine ⟨s₃, y, s₄, ?_, hrun, ?_⟩
    · rw [valuesBefore, hitem]
      exact hbefore.append hvisits
    · rw [at?, hget]
      exact hat
  | .field key :: place, .object fields, _, _, _, h, hrun => by
    obtain ⟨value, hvalue, h⟩ := Option.bind_eq_some_iff.1 h
    obtain ⟨ws, _, hfields, hpure⟩ := r.of_bind hrun
    obtain ⟨rfl, rfl⟩ := r.of_pure hpure
    obtain ⟨s₁, w, s₂, hbefore, hrun, hget⟩ := at_field hvalue hfields
    obtain ⟨s₃, y, s₄, hvisits, hrun, hat⟩ := at_place h hrun
    refine ⟨s₃, y, s₄, ?_, hrun, ?_⟩
    · rw [valuesBefore, hvalue]
      exact hbefore.append hvisits
    · rw [at?, hget]
      exact hat

end Running

/-! ## Putting expressions back -/

namespace Placeholders

/-- Putting back never fails. -/
def running : Running (StateM Placeholders) Placeholders where
  Run x p a q := x.run p = (a, q)
  of_pure h := by
    cases h
    exact ⟨rfl, rfl⟩
  of_bind {_ _ x _ p _ _} h := ⟨(x.run p).1, (x.run p).2, rfl, h⟩

theorem expression?_reinstateString (p : Placeholders) (s x : String) :
    ((reinstateString s).run p).2.expression? x = if x = s then none else p.expression? x := by
  change (reinstateString s p).2.expression? x = _
  unfold reinstateString
  by_cases hx : x = s
  · subst hx
    rw [if_pos rfl]
    cases h : p.expression? x with
    | none => exact h
    | some t =>
      refine List.lookup_eq_none_iff.2 fun e he => ?_
      have := (List.mem_filter.1 he).2
      rw [bne_iff_ne] at this ⊢
      exact fun heq => this heq.symm
  · rw [if_neg hx]
    cases h : p.expression? s with
    | none => rfl
    | some t => exact lookup_filter_ne hx p.expressions

/-- An expression is there until its placeholder is met. -/
theorem expression?_of_visits {xs : List String} {p q : Placeholders} (x : String)
    (h : running.Visits reinstateString xs p q) :
    q.expression? x = if x ∈ xs then none else p.expression? x := by
  induction h with
  | nil => rfl
  | @cons s xs p q₁ q v hrun hvisits ih =>
    have hq : q₁ = ((reinstateString s).run p).2 := (congrArg Prod.snd hrun).symm
    rw [ih, hq, expression?_reinstateString]
    by_cases hx : x = s
    · simp [hx]
    · simp [hx]

/-- Where a string stands, its expression is put back, if it has one that was not put back
before. -/
theorem reinstate_at {p : Placeholders} {v : Json} {place : List Step} {x : String}
    (h : v.at? place = some (.string x)) :
    (p.reinstate v).1.at? place
      = some (.string (if x ∈ v.valuesBefore place then x else p.textOf x)) := by
  have hrun : running.Run (v.traverseStrings reinstateString) p (p.reinstate v).1
      (p.reinstate v).2 := rfl
  obtain ⟨q, y, q', hvisits, hstring, hat⟩ := Running.at_place h hrun
  have hy : y = .string (q.textOf x) := by
    have hy : y = ((reinstateString x).run q).1 := (congrArg Prod.fst hstring).symm
    rw [hy]
    change (reinstateString x q).1 = _
    unfold reinstateString textOf
    cases q.expression? x <;> rfl
  rw [hat, hy, textOf, expression?_of_visits x hvisits]
  by_cases hx : x ∈ v.valuesBefore place
  · rw [if_pos hx, if_pos hx]
    rfl
  · rw [if_neg hx, if_neg hx]
    rfl

end Placeholders

/-! ## Expanding -/

namespace Expanding

variable {σ : Type}

/-- An expansion that finishes. -/
def running (σ : Type) : Running (Expanding σ) (Session σ) where
  Run x s a s' := x.run s = .ok (a, s')
  of_pure h := by
    cases h
    exact ⟨rfl, rfl⟩
  of_bind {_ _ x _ s _ _} h := by
    rw [run_bind] at h
    split at h
    · rename_i a s₁ hx
      exact ⟨a, s₁, hx, h⟩
    · cases h

/-- Expanding a string keeps the blocks. -/
theorem alike_of_expandString {source : ValueSource σ} {depth : Nat} {x : String} {p : Placeholders}
    {s s' : Session σ} {v : Json} (h : (expandString source depth x).run s = .ok (v, s'))
    (hs : p.Alike s.placeholders) : p.Alike s'.placeholders := by
  have hfollows := follows_expandString source depth x
  obtain ⟨l, q⟩ := s
  cases ho : (Outlining.string depth x).run q with
  | none =>
    obtain ⟨halt, hrun, -⟩ := hfollows.run_of_none (l := l) ho
    rw [hrun] at h
    cases h
  | some result =>
    obtain ⟨o, q'⟩ := result
    have halike := Outlining.keeps_string depth x q o q' hs ho
    rw [hfollows.run_of_some ho] at h
    cases hv : (o.evaluate source).run l with
    | error halt =>
      rw [hv] at h
      cases h
    | ok result =>
      rw [hv] at h
      cases h
      exact halike

theorem alike_of_visits {source : ValueSource σ} {depth : Nat} {xs : List String} {p : Placeholders}
    {s s' : Session σ} (h : (running σ).Visits (expandString source depth) xs s s')
    (hs : p.Alike s.placeholders) : p.Alike s'.placeholders := by
  induction h with
  | nil => exact hs
  | cons hrun _ ih => exact ih (alike_of_expandString hrun hs)

/-- Where a string stands, there is in the end what it is expanded to, with the same blocks. -/
theorem expandValue_at {source : ValueSource σ} {v w : Json} {s s' : Session σ} {place : List Step}
    {x : String} (hs : s.placeholders.WellFormed) (h : v.at? place = some (.string x))
    (hrun : (expandValue source v).run s = .ok (w, s')) :
    ∃ depth s₁ y s₂, s.placeholders.Alike s₁.placeholders
      ∧ (expandString source depth x).run s₁ = .ok (y, s₂) ∧ w.at? place = some y := by
  rw [Template.run_expandValue] at hrun
  obtain ⟨s₁, y, s₂, hvisits, hstring, hat⟩ := Running.at_place (r := running σ) h hrun
  exact ⟨_, s₁, y, s₂, alike_of_visits hvisits hs.alike, hstring, hat⟩

end Expanding

end JsonTemplate
