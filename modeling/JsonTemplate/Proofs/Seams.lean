import JsonTemplate.Proofs.Outline
import JsonTemplate.Proofs.Segments
import JsonTemplate.Proofs.Unmarked

/-!
# What strings resolve to

The values of a source whose answers are unmarked are unmarked, and so is what a directive falls
back on. A concatenation is joined of unmarked parts (`gives_resolveString`): only across a seam
between two of them can a placeholder begin.
-/

namespace JsonTemplate

variable {σ α β : Type}

/-- No answer of the source has a placeholder's beginning in it. -/
def ValueSource.Unmarked (source : ValueSource σ) : Prop :=
  ∀ namespaceName method args s v s',
    (source.call namespaceName method args).run.run s = .ok (.ok v, s') → v.Unmarked

theorem ValueSource.unmarked_constant {v : Json} (h : v.Unmarked) : (constant v).Unmarked := by
  intro _ _ _ _ _ _ heq
  cases heq
  exact h

theorem Json.unmarked_string {s : String} (h : JsonTemplate.Unmarked s.toList) :
    (Json.string s).Unmarked where
  values x hx := by
    rw [Json.values_string, List.mem_singleton] at hx
    exact hx ▸ h
  keys k hk := by cases hk

/-- A string is what the source makes of a concatenation, joined of two parts or more, each of which
is unmarked. -/
def Expression.Joins (source : ValueSource σ) (t : List Char) (x : String) : Prop :=
  Expression.isLikely t = true ∧ ∃ l parts l',
    (Resolving.segmentTexts source (Expression.parse t)).run l = .ok (parts, l')
      ∧ 2 ≤ parts.length ∧ (∀ part ∈ parts, Unmarked part.toList) ∧ x = String.join parts

namespace Resolving

/-- If `r` gives anything at all, it has the property. -/
def Gives (P : α → Prop) (r : Resolving σ α) : Prop :=
  ∀ l a l', r.run l = .ok (a, l') → P a

theorem gives_pure {P : α → Prop} {a : α} (h : P a) : Gives P (pure a : Resolving σ α) := by
  intro l a' l' hrun
  cases hrun
  exact h

theorem Gives.bind {P : α → Prop} {Q : β → Prop} {r : Resolving σ α} {k : α → Resolving σ β}
    (hr : Gives P r) (hk : ∀ a, P a → Gives Q (k a)) : Gives Q (r >>= k) := by
  intro l b l' h
  rw [run_bind] at h
  split at h
  · rename_i a l₁ ha
    exact hk a (hr l a l₁ ha) l₁ b l' h
  · cases h

theorem gives_true (r : Resolving σ α) : Gives (fun _ => True) r :=
  fun _ _ _ _ => trivial

theorem Gives.run {P : α → Prop} {r : Resolving σ α} (hr : Gives P r) :
    Gives (fun a => P a ∧ ∃ l l', r.run l = .ok (a, l')) r :=
  fun l a l' hrun => ⟨hr l a l' hrun, l, l', hrun⟩

theorem Gives.mono {P Q : α → Prop} {r : Resolving σ α} (hr : Gives P r) (h : ∀ a, P a → Q a) :
    Gives Q r :=
  fun l a l' hrun => h a (hr l a l' hrun)

/-! ## Words -/

/-- The words of an expression: those of its segments, but the text itself if it is one segment and
no directive. -/
def expressionWords (t : List Char) : List (List Char) :=
  match Expression.parse t with
  | [.directive d] => [d.path.toList]
  | [_] => [t]
  | segments => segments.map Segment.word

/-- What the value of a string is put together from, where directives fall back on their names. -/
def words (s : String) : List (List Char) :=
  match if Token.isToken s.toList then Directive.parse? s.toList else none with
  | some d => [d.path.toList]
  | none => if Expression.isLikely s.toList then expressionWords s.toList else [s.toList]

variable {source : ValueSource σ}

section Directives

variable (hs : source.Unmarked)
include hs

theorem gives_call (namespaceName method : String) (args : List Json) :
    Gives (fun r => ∀ v, r = .ok v → v.Unmarked) (call source namespaceName method args) := by
  intro l r l' h v hv
  subst hv
  have hcall := hs namespaceName method args l.source v
  simp only [call, StateT.run] at h hcall
  rcases hc : ExceptT.run (source.call namespaceName method args) l.source with e | ⟨r, s⟩
  · rw [hc] at h
    cases h
  · rw [hc] at h
    cases h
    exact hcall s hc

theorem gives_callAdapted (namespaceName method : String) (args : List Json) :
    Gives (fun r => ∀ v, r = .ok v → v.Unmarked)
      (callAdapted source namespaceName method args) := by
  unfold callAdapted
  refine (gives_call hs _ _ _).bind fun r hr => ?_
  cases r with
  | ok v =>
    refine gives_pure fun w hw => ?_
    cases hw
    have hv := hr v rfl
    cases ArgumentShape.ofMethod method with
    | days default => exact Calendar.unmarked_dateOf hv
    | ages min max => exact Calendar.unmarked_dateOf hv
    | _ => exact hv
  | error e =>
    dsimp only
    split
    · exact gives_call hs _ _ _
    · exact gives_pure fun v hv => by cases hv

/-- A directive without a value falls back on its own name. -/
theorem gives_resolve {d : Directive} (hd : Unmarked d.path.toList) :
    Gives Json.Unmarked (resolve source d) := by
  unfold resolve
  unfold Directive.path at hd
  split <;> rename_i hm <;> rw [hm] at hd
  · have hpath := Json.unmarked_string hd
    unfold resolveQualified
    refine (gives_true _).bind fun b _ => ?_
    split
    · refine (gives_callAdapted hs _ _ _).bind fun r hr => ?_
      cases r with
      | ok v => exact gives_pure (hr v rfl)
      | error e => exact (gives_true _).bind fun _ _ => gives_pure hpath
    · exact (gives_true _).bind fun _ _ => gives_pure hpath
  · have hname := Json.unmarked_string hd
    unfold resolveName
    split
    · refine (gives_call hs _ _ _).bind fun r hr => ?_
      cases r with
      | ok v => exact gives_pure (hr v rfl)
      | error e => exact (gives_true _).bind fun _ _ => gives_pure hname
    · refine (gives_true _).bind fun _ _ => (gives_call hs _ _ _).bind fun r hr => ?_
      cases r with
      | ok v => exact gives_pure (hr v rfl)
      | error e => exact gives_pure hname

theorem gives_segmentText {segment : Segment} (h : Unmarked segment.word) :
    Gives (fun part => Unmarked part.toList) (segmentText source segment) := by
  cases segment with
  | literal s => exact gives_pure h
  | verbatim s => exact gives_pure h
  | directive d =>
    exact (gives_resolve hs h).bind fun v hv => gives_pure (Json.unmarked_display hv)

theorem gives_segmentTexts : ∀ {segments : List Segment}, (∀ g ∈ segments, Unmarked g.word) →
    Gives (fun parts => parts.length = segments.length ∧ ∀ part ∈ parts, Unmarked part.toList)
      (segmentTexts source segments)
  | [], _ => gives_pure ⟨rfl, by simp⟩
  | segment :: rest, h => by
    rw [List.forall_mem_cons] at h
    refine (gives_segmentText hs h.1).bind fun part hpart => ?_
    refine (gives_segmentTexts h.2).bind fun parts hparts => gives_pure ?_
    exact ⟨by simp [hparts.1], List.forall_mem_cons.2 ⟨hpart, hparts.2⟩⟩

/-- The value of an expression: an unmarked one, or a string that is joined of unmarked parts. -/
theorem gives_resolveExpression {t : List Char}
    (hwords : ∀ w ∈ expressionWords t, Unmarked w) (hlikely : Expression.isLikely t = true) :
    Gives (fun v => v.Unmarked ∨ ∃ x, v = .string x ∧ Expression.Joins source t x)
      (resolveExpression source t) := by
  unfold resolveExpression
  unfold expressionWords at hwords
  split
  · rename_i hparse
    rw [hparse] at hwords
    exact (gives_resolve hs (hwords _ List.mem_cons_self)).mono fun v hv => .inl hv
  · rename_i hdirective hparse
    simp only [hparse] at hwords
    have ht := hwords t (List.mem_singleton_self t)
    exact gives_pure (.inl (Json.unmarked_string (by rwa [String.toList_ofList])))
  · rename_i hdirective hsingle
    simp only at hwords
    have hsegments : ∀ g ∈ Expression.parse t, Unmarked g.word :=
      fun g hg => hwords _ (List.mem_map_of_mem hg)
    refine (gives_segmentTexts hs hsegments).run.bind fun parts hparts => gives_pure (.inr ?_)
    obtain ⟨⟨hlength, hunmarked⟩, l, l', hrun⟩ := hparts
    refine ⟨_, rfl, hlikely, l, parts, l', hrun, ?_, hunmarked, rfl⟩
    rw [hlength]
    rcases hp : Expression.parse t with _ | ⟨g, _ | ⟨g', rest⟩⟩
    · exact absurd (List.map_eq_nil_iff.1 hp) (splitFrom_ne_nil .top t)
    · exact absurd hp (hsingle g)
    · simp

end Directives

/-- No word of the string is marked, so that its value cannot have a placeholder in it but across a
seam. -/
def Harmless (s : String) : Prop :=
  ∀ w ∈ words s, Unmarked w

instance : DecidablePred Harmless := fun s =>
  inferInstanceAs (Decidable (∀ w ∈ words s, Unmarked w))

/-- The words of an unmarked text without escapes stand in it. -/
theorem harmless_of_unmarked {s : String} (hu : Unmarked s.toList)
    (he : Json.Escapeless s.toList) : Harmless s := by
  intro w hw
  unfold words at hw
  split at hw
  · rename_i d hd
    split at hd
    · rw [List.mem_singleton.1 hw]
      exact hu.part (Directive.path_infix_of_parse? hd)
    · cases hd
  · split at hw
    · have hword : ∀ g ∈ Expression.parse s.toList, Unmarked g.word := fun g hg =>
        hu.part (Expression.word_infix_of_mem_parse he hg)
      unfold expressionWords at hw
      split at hw <;> rename_i hparse
      · rw [List.mem_singleton.1 hw]
        exact hword _ (by rw [hparse]; exact List.mem_cons_self)
      · rw [List.mem_singleton.1 hw]
        exact hu
      · obtain ⟨g, hg, rfl⟩ := List.mem_map.1 hw
        exact hword g hg
    · rw [List.mem_singleton.1 hw]
      exact hu

/-- The only word of a token is the name and the method of its directive, whatever its
arguments. -/
theorem harmless_of_token {k : Token} (hk : k.WellFormed)
    (hpath : Unmarked (Directive.ofToken k).path.toList) : Harmless (String.ofList k.text) := by
  intro w hw
  rw [words, String.toList_ofList, if_pos (Token.isToken_text hk), Directive.parse?_text hk] at hw
  rwa [List.mem_singleton.1 hw]

/-- What a harmless string resolves to. -/
def ComesOf (source : ValueSource σ) (s : String) (v : Json) : Prop :=
  v.Unmarked ∨ ∃ x, v = .string x ∧ Expression.Joins source s.toList x

theorem gives_resolveString (hs : source.Unmarked) {s : String} (h : Harmless s) :
    Gives (ComesOf source s) (resolveString source s) := by
  unfold resolveString
  unfold Harmless words at h
  dsimp only
  split <;> rename_i hd <;> simp only [hd] at h
  · exact (gives_resolve hs (h _ (List.mem_singleton_self _))).mono fun v hv => .inl hv
  · split <;> rename_i hlikely
    · rw [if_pos hlikely] at h
      exact gives_resolveExpression hs h hlikely
    · rw [if_neg hlikely] at h
      exact gives_pure (.inl (Json.unmarked_string (h _ (List.mem_singleton_self _))))

end Resolving

/-! ## Outlines -/

namespace Outline

open Resolving

mutual

/-- The strings of an outline that are resolved and kept. -/
def texts : Outline → List String
  | .null | .bool _ | .number _ | .unread .. => []
  | .text s => [s]
  | .array items => textsOfItems items
  | .object fields => textsOfFields fields

def textsOfItems : List Outline → List String
  | [] => []
  | item :: rest => texts item ++ textsOfItems rest

def textsOfFields : List (String × Outline) → List String
  | [] => []
  | (_, value) :: rest => texts value ++ textsOfFields rest

end

mutual

/-- The names of the fields of an outline. -/
def keys : Outline → List String
  | .null | .bool _ | .number _ | .unread .. | .text _ => []
  | .array items => keysOfItems items
  | .object fields => keysOfFields fields

def keysOfItems : List Outline → List String
  | [] => []
  | item :: rest => keys item ++ keysOfItems rest

def keysOfFields : List (String × Outline) → List String
  | [] => []
  | (key, value) :: rest => key :: (keys value ++ keysOfFields rest)

end

/-- A string is unmarked, or joined across seams from one of the texts. -/
def Seamed (source : ValueSource σ) (texts : List String) (x : String) : Prop :=
  Unmarked x.toList ∨ ∃ s ∈ texts, Expression.Joins source s.toList x

variable {source : ValueSource σ}

theorem Seamed.mono {ss ts : List String} (h : ss ⊆ ts) {x : String} (hx : Seamed source ss x) :
    Seamed source ts x := by
  rcases hx with hx | ⟨s, hs, hx⟩
  · exact .inl hx
  · exact .inr ⟨s, h hs, hx⟩

theorem seamed_of_comesOf {s x : String} {v : Json} (h : ComesOf source s v) (hx : x ∈ v.values) :
    Seamed source [s] x := by
  rcases h with h | ⟨y, rfl, hy⟩
  · exact .inl (h.values x hx)
  · rw [Json.values_string, List.mem_singleton] at hx
    exact .inr ⟨s, List.mem_singleton_self s, hx ▸ hy⟩

theorem keys_of_comesOf {s k : String} {v : Json} (h : ComesOf source s v) (hk : k ∈ v.keys) :
    Unmarked k.toList := by
  rcases h with h | ⟨y, rfl, -⟩
  · exact h.keys k hk
  · cases hk

mutual

/-- The strings of an outline's value, if its texts are harmless and its names unmarked. -/
theorem gives_evaluate (hs : source.Unmarked) : ∀ o : Outline,
    (∀ s ∈ o.texts, Harmless s) → (∀ k ∈ o.keys, Unmarked k.toList) →
      Gives (fun v => (∀ x ∈ v.values, Seamed source o.texts x) ∧ ∀ k ∈ v.keys, Unmarked k.toList)
        (o.evaluate source)
  | .null, _, _ | .bool _, _, _ | .number _, _, _ => by
    rw [evaluate]
    exact gives_pure ⟨fun x hx => (by cases hx), fun k hk => (by cases hk)⟩
  | .text s, ht, _ => by
    rw [evaluate]
    refine (gives_resolveString hs (ht s (by simp [texts]))).mono fun v hv => ?_
    exact ⟨fun x hx => by simpa [texts] using seamed_of_comesOf hv hx,
      fun k hk => keys_of_comesOf hv hk⟩
  | .array items, ht, hk => by
    rw [evaluate]
    exact (gives_evaluateItems hs items ht hk).bind fun vs hvs => gives_pure hvs
  | .object fields, ht, hk => by
    rw [evaluate]
    exact (gives_evaluateFields hs fields ht hk).bind fun fs hfs => gives_pure hfs
  | .unread made name error, _, _ => by
    rw [evaluate]
    refine (gives_true _).bind fun _ _ => (gives_true _).bind fun _ _ => gives_pure ?_
    exact ⟨fun x hx => (by cases hx), fun k hk => (by cases hk)⟩

theorem gives_evaluateItems (hs : source.Unmarked) : ∀ os : List Outline,
    (∀ s ∈ textsOfItems os, Harmless s) → (∀ k ∈ keysOfItems os, Unmarked k.toList) →
      Gives (fun vs => (∀ x ∈ Json.valuesOfItems vs, Seamed source (textsOfItems os) x)
          ∧ ∀ k ∈ Json.keysOfItems vs, Unmarked k.toList)
        (evaluateItems source os)
  | [], _, _ => by
    rw [evaluateItems]
    exact gives_pure ⟨fun x hx => (by cases hx), fun k hk => (by cases hk)⟩
  | o :: rest, ht, hk => by
    rw [textsOfItems] at ht
    rw [keysOfItems] at hk
    rw [evaluateItems, textsOfItems]
    refine (gives_evaluate hs o (fun s h => ht s (List.mem_append_left _ h))
      fun k h => hk k (List.mem_append_left _ h)).bind fun v hv => ?_
    refine (gives_evaluateItems hs rest (fun s h => ht s (List.mem_append_right _ h))
      fun k h => hk k (List.mem_append_right _ h)).bind fun vs hvs => gives_pure ?_
    rw [Json.valuesOfItems_cons, Json.keysOfItems_cons]
    refine ⟨fun x hx => ?_, fun k h => ?_⟩
    · rcases List.mem_append.1 hx with hx | hx
      · exact (hv.1 x hx).mono (List.subset_append_left _ _)
      · exact (hvs.1 x hx).mono (List.subset_append_right _ _)
    · rcases List.mem_append.1 h with h | h
      · exact hv.2 k h
      · exact hvs.2 k h

theorem gives_evaluateFields (hs : source.Unmarked) : ∀ os : List (String × Outline),
    (∀ s ∈ textsOfFields os, Harmless s) → (∀ k ∈ keysOfFields os, Unmarked k.toList) →
      Gives (fun fs => (∀ x ∈ Json.valuesOfFields fs, Seamed source (textsOfFields os) x)
          ∧ ∀ k ∈ Json.keysOfFields fs, Unmarked k.toList)
        (evaluateFields source os)
  | [], _, _ => by
    rw [evaluateFields]
    exact gives_pure ⟨fun x hx => (by cases hx), fun k hk => (by cases hk)⟩
  | (key, o) :: rest, ht, hk => by
    rw [textsOfFields] at ht
    rw [keysOfFields, List.forall_mem_cons] at hk
    rw [evaluateFields, textsOfFields]
    refine (gives_evaluate hs o (fun s h => ht s (List.mem_append_left _ h))
      fun k h => hk.2 k (List.mem_append_left _ h)).bind fun v hv => ?_
    refine (gives_evaluateFields hs rest (fun s h => ht s (List.mem_append_right _ h))
      fun k h => hk.2 k (List.mem_append_right _ h)).bind fun fs hfs => gives_pure ?_
    rw [Json.valuesOfFields_cons, Json.keysOfFields_cons]
    refine ⟨fun x hx => ?_, List.forall_mem_cons.2 ⟨hk.1, fun k h => ?_⟩⟩
    · rcases List.mem_append.1 hx with hx | hx
      · exact (hv.1 x hx).mono (List.subset_append_left _ _)
      · exact (hfs.1 x hx).mono (List.subset_append_right _ _)
    · rcases List.mem_append.1 h with h | h
      · exact hv.2 k h
      · exact hfs.2 k h

end

end Outline

end JsonTemplate
