import JsonTemplate.Proofs.Registry
import JsonTemplate.Proofs.Run

/-!
# What an expander has been used for

An expander is asked to expand texts and values and to evaluate expressions, in any order. Its table
grows by what it reads, and never loses a block: what every reading keeps true of the table is true
after any use (`preserves_history`).
-/

namespace JsonTemplate

variable {σ α β : Type}

/-- What an expander is asked for. -/
inductive Operation
  | expandText (t : List Char)
  | expandValue (v : Json)
  | evaluate (t : List Char)

namespace Operation

variable (source : ValueSource σ)

/-- What an operation does to the expander; its result is for the asker. -/
def perform : Operation → Expanding σ Unit
  | .expandText t => do
    let _ ← Expanding.expandJson source t
  | .expandValue v => do
    let _ ← Expanding.expandValue source v
  | .evaluate t => do
    let _ ← Expanding.expandExpression source t

/-- Operations one after the other. -/
def history : List Operation → Expanding σ Unit
  | [] => pure ()
  | o :: ops => do
    o.perform source
    history ops

end Operation

namespace Expanding

/-- Whatever `x` gives, it keeps a property of the table. -/
def Preserves (P : Placeholders → Prop) (x : Expanding σ α) : Prop :=
  ∀ s a s', P s.placeholders → x.run s = .ok (a, s') → P s'.placeholders

variable {P : Placeholders → Prop}

theorem preserves_pure (a : α) : Preserves P (pure a : Expanding σ α) := by
  intro s a' s' hs h
  cases h
  exact hs

theorem Preserves.bind {x : Expanding σ α} {k : α → Expanding σ β} (hx : Preserves P x)
    (hk : ∀ a, Preserves P (k a)) : Preserves P (x >>= k) := by
  intro s b s' hs h
  rw [run_bind] at h
  split at h
  · rename_i a s₁ ha
    exact hk a s₁ b s' (hx s a s₁ hs ha) h
  · cases h

theorem preserves_resolving (r : Resolving σ α) : Preserves P (resolving r) := by
  intro s a s' hs h
  rw [run_resolving] at h
  cases hr : r.run s.toLedger with
  | error e => rw [hr] at h; cases h
  | ok x => rw [hr] at h; cases h; exact hs

theorem preserves_get : Preserves P (get : Expanding σ (Session σ)) := by
  intro s a s' hs h
  cases h
  exact hs

section Values

variable {f : String → Expanding σ Json}

mutual

theorem preserves_value (hf : ∀ x, Preserves P (f x)) :
    ∀ v : Json, Preserves P (v.traverseStrings f)
  | .null | .bool _ | .number _ => preserves_pure _
  | .string x => hf x
  | .array vs => (preserves_items hf vs).bind fun _ => preserves_pure _
  | .object fs => (preserves_fields hf fs).bind fun _ => preserves_pure _

theorem preserves_items (hf : ∀ x, Preserves P (f x)) : ∀ vs : List Json,
    Preserves P (Json.traverseItems f vs)
  | [] => preserves_pure _
  | v :: vs =>
    (preserves_value hf v).bind fun _ => (preserves_items hf vs).bind fun _ => preserves_pure _

theorem preserves_fields (hf : ∀ x, Preserves P (f x)) : ∀ fs : Json.Fields,
    Preserves P (Json.traverseFields f fs)
  | [] => preserves_pure _
  | (_, v) :: fs =>
    (preserves_value hf v).bind fun _ => (preserves_fields hf fs).bind fun _ => preserves_pure _

end

end Values

theorem preserves_copies {make : Expanding σ (Except TemplateError (Option Json))}
    (h : Preserves P make) : ∀ n made, Preserves P (copies make n made)
  | 0, _ => preserves_pure _
  | n + 1, made => h.bind fun r => by
    rcases r with e | _ | v
    · exact preserves_pure _
    · exact preserves_pure _
    · exact preserves_copies h n _

section Reading

variable (hP : ∀ t p, P p → P (Placeholders.readTemplate t p).2)
include hP

theorem preserves_readTemplate (t : List Char) :
    Preserves P (readTemplate t : Expanding σ _) := by
  intro s a s' hs h
  rw [readTemplate, run_updatePlaceholders] at h
  cases h
  exact hP t _ hs

section Blocks

variable {f : String → Expanding σ Json}

theorem preserves_item (hf : ∀ x, Preserves P (f x)) (template : List Char) :
    Preserves P (expandItem f template) := by
  refine (preserves_readTemplate hP template).bind fun r => ?_
  cases r with
  | error e => exact preserves_pure _
  | ok v =>
    dsimp only
    split
    · exact (preserves_value hf _).bind fun _ => preserves_pure _
    · exact preserves_pure _

theorem preserves_block (hf : ∀ x, Preserves P (f x)) (name : String) (block : RepeatBlock) :
    Preserves P (expandBlock f name block) := by
  refine (preserves_copies (preserves_item hP hf _) _ _).bind fun r => ?_
  cases r with
  | error e => exact (preserves_resolving _).bind fun _ => preserves_pure _
  | ok items => exact preserves_pure _

end Blocks

variable (source : ValueSource σ)

theorem preserves_expandString : ∀ depth x, Preserves P (expandString source depth x)
  | 0, x => preserves_get.bind fun s => by
    split
    · intro s a s' hs h
      cases h
    · exact preserves_resolving _
  | depth + 1, x => preserves_get.bind fun s => by
    split
    · exact preserves_block hP (preserves_expandString depth) _ _
    · exact preserves_resolving _

theorem preserves_expandValue (v : Json) : Preserves P (expandValue source v) :=
  preserves_get.bind fun _ => preserves_value (preserves_expandString hP source _) v

theorem preserves_expandJson (t : List Char) : Preserves P (expandJson source t) := by
  refine (preserves_readTemplate hP t).bind fun r => ?_
  cases r with
  | error e => exact preserves_pure _
  | ok v => exact (preserves_expandValue hP source v).bind fun _ => preserves_pure _

theorem preserves_history : ∀ ops : List Operation, Preserves P (Operation.history source ops)
  | [] => preserves_pure _
  | .expandText t :: ops =>
    ((preserves_expandJson hP source t).bind fun _ => preserves_pure _).bind fun _ =>
      preserves_history ops
  | .expandValue v :: ops =>
    ((preserves_expandValue hP source v).bind fun _ => preserves_pure _).bind fun _ =>
      preserves_history ops
  | .evaluate _ :: ops =>
    ((preserves_resolving _).bind fun _ => preserves_pure _).bind fun _ => preserves_history ops

end Reading

end Expanding

/-! ## Tables of used expanders -/

/-- The table of an expander is well-formed, whatever it has been used for. -/
theorem Operation.wellFormed_of_history {source : ValueSource σ} {ops : List Operation}
    {s s' : Session σ} (hs : s.placeholders.WellFormed)
    (h : (history source ops).run s = .ok ((), s')) : s'.placeholders.WellFormed :=
  Expanding.preserves_history (fun t _ hp => hp.readTemplate t) source ops s () s' hs h

/-- No use of an expander loses a block. -/
theorem Operation.within_of_history {source : ValueSource σ} {ops : List Operation}
    {s s' : Session σ} (h : (history source ops).run s = .ok ((), s')) :
    s.placeholders.Within s'.placeholders :=
  Expanding.preserves_history (P := s.placeholders.Within) (fun t _ hp => hp.readTemplate t)
    source ops s () s' (.refl _) h

end JsonTemplate
