import JsonTemplate.Proofs.Outline
import JsonTemplate.Proofs.Strings

/-!
# Blocks within blocks

The blocks stay as they are while an outline is made (`Outlining.keeps_string`). Whether it is made
depends on the strings that are met: a value has an outline if all of them have one
(`Outlining.succeeds_value`), and none if one of them has none (`Outlining.fails_value`). The depth
that blocks may nest to decides whether there is an outline, but not which
(`Outlining.extends_string`).
-/

namespace JsonTemplate

namespace Placeholders

/-- Another table with the same blocks: one that is met after more reading. -/
structure Alike (p q : Placeholders) : Prop where
  blocks : q.blocks = p.blocks
  wellFormed : q.WellFormed

theorem WellFormed.alike {p : Placeholders} (hp : p.WellFormed) : p.Alike p :=
  ⟨rfl, hp⟩

theorem Alike.readTemplate {p q : Placeholders} (h : p.Alike q) {t : List Char}
    (ht : RepeatBlock.Markless t) : p.Alike (q.readTemplate t).2 where
  blocks := by rw [readTemplate_blocks_of_markless ht, h.blocks]
  wellFormed := h.wellFormed.readTemplate t

/-- The first item of an array, read from its text. -/
def firstItem? (p : Placeholders) (template : List Char) : Option Json :=
  match (p.readTemplate template).1 with
  | .ok v => v.firstItem?
  | .error _ => none

end Placeholders

namespace Outlining

variable {α β : Type}

/-- Whatever has been read, `o` keeps the blocks. -/
def Keeps (p : Placeholders) (o : Outlining α) : Prop :=
  ∀ q a q', p.Alike q → o.run q = some (a, q') → p.Alike q'

/-- Whatever has been read, `o` gives an outline. -/
def Succeeds (p : Placeholders) (o : Outlining α) : Prop :=
  ∀ q, p.Alike q → (o.run q).isSome

/-- Whatever has been read, `o` nests too deep. -/
def Fails (p : Placeholders) (o : Outlining α) : Prop :=
  ∀ q, p.Alike q → o.run q = none

variable {p : Placeholders} {o : Outlining α} {k : α → Outlining β}

theorem keeps_pure (a : α) : Keeps p (pure a) := by
  intro q a' q' hq h
  cases h
  exact hq

theorem Keeps.bind (ho : Keeps p o) (hk : ∀ a, Keeps p (k a)) : Keeps p (o >>= k) := by
  intro q b q' hq h
  rw [run_bind] at h
  split at h
  · rename_i a q₁ ha
    exact hk a q₁ b q' (ho q a q₁ hq ha) h
  · cases h

theorem Succeeds.bind (ho : Succeeds p o) (hkeep : Keeps p o) (hk : ∀ a, Succeeds p (k a)) :
    Succeeds p (o >>= k) := by
  intro q hq
  rw [run_bind]
  obtain ⟨⟨a, q₁⟩, ha⟩ := Option.isSome_iff_exists.1 (ho q hq)
  rw [ha]
  exact hk a q₁ (hkeep q a q₁ hq ha)

theorem succeeds_pure (a : α) : Succeeds p (pure a) :=
  fun _ _ => rfl

theorem Fails.bind (ho : Fails p o) : Fails p (o >>= k) := by
  intro q hq
  rw [run_bind, ho q hq]

theorem Keeps.fails_bind (ho : Keeps p o) (hk : ∀ a, Fails p (k a)) : Fails p (o >>= k) := by
  intro q hq
  rw [run_bind]
  split
  · rename_i a q₁ ha
    exact hk a q₁ (ho q a q₁ hq ha)
  · rfl

/-! ## Values -/

section Values

variable {f : String → Outlining Outline}

mutual

theorem keeps_value (hf : ∀ s, Keeps p (f s)) : ∀ v : Json, Keeps p (value f v)
  | .null | .bool _ | .number _ => keeps_pure _
  | .string s => hf s
  | .array vs => (keeps_items hf vs).bind fun _ => keeps_pure _
  | .object fs => (keeps_fields hf fs).bind fun _ => keeps_pure _

theorem keeps_items (hf : ∀ s, Keeps p (f s)) : ∀ vs : List Json, Keeps p (items f vs)
  | [] => keeps_pure _
  | v :: rest => (keeps_value hf v).bind fun _ => (keeps_items hf rest).bind fun _ => keeps_pure _

theorem keeps_fields (hf : ∀ s, Keeps p (f s)) : ∀ fs : Json.Fields, Keeps p (fields f fs)
  | [] => keeps_pure _
  | (_, v) :: rest =>
    (keeps_value hf v).bind fun _ => (keeps_fields hf rest).bind fun _ => keeps_pure _

end

mutual

theorem succeeds_value (hf : ∀ s, Keeps p (f s)) : ∀ v : Json, (∀ s ∈ v.values, Succeeds p (f s)) →
    Succeeds p (value f v)
  | .null, _ | .bool _, _ | .number _, _ => succeeds_pure _
  | .string s, h => h s (by simp)
  | .array vs, h =>
    (succeeds_items hf vs h).bind (keeps_items hf vs) fun _ => succeeds_pure _
  | .object fs, h =>
    (succeeds_fields hf fs h).bind (keeps_fields hf fs) fun _ => succeeds_pure _

theorem succeeds_items (hf : ∀ s, Keeps p (f s)) : ∀ vs : List Json,
    (∀ s ∈ Json.valuesOfItems vs, Succeeds p (f s)) → Succeeds p (items f vs)
  | [], _ => succeeds_pure _
  | v :: rest, h => by
    simp only [Json.valuesOfItems_cons, List.mem_append] at h
    exact (succeeds_value hf v fun s hs => h s (.inl hs)).bind (keeps_value hf v) fun _ =>
      (succeeds_items hf rest fun s hs => h s (.inr hs)).bind (keeps_items hf rest) fun _ =>
        succeeds_pure _

theorem succeeds_fields (hf : ∀ s, Keeps p (f s)) : ∀ fs : Json.Fields,
    (∀ s ∈ Json.valuesOfFields fs, Succeeds p (f s)) → Succeeds p (fields f fs)
  | [], _ => succeeds_pure _
  | (_, v) :: rest, h => by
    simp only [Json.valuesOfFields_cons, List.mem_append] at h
    exact (succeeds_value hf v fun s hs => h s (.inl hs)).bind (keeps_value hf v) fun _ =>
      (succeeds_fields hf rest fun s hs => h s (.inr hs)).bind (keeps_fields hf rest) fun _ =>
        succeeds_pure _

end

mutual

theorem fails_value (hf : ∀ s, Keeps p (f s)) {s : String} (hs : Fails p (f s)) :
    ∀ v : Json, s ∈ v.values → Fails p (value f v)
  | .null, h | .bool _, h | .number _, h => by cases h
  | .string s', h => by
    rw [Json.values_string, List.mem_singleton] at h
    exact h ▸ hs
  | .array vs, h => (fails_items hf hs vs h).bind
  | .object fs, h => (fails_fields hf hs fs h).bind

theorem fails_items (hf : ∀ s, Keeps p (f s)) {s : String} (hs : Fails p (f s)) :
    ∀ vs : List Json, s ∈ Json.valuesOfItems vs → Fails p (items f vs)
  | [], h => by cases h
  | v :: rest, h => by
    rw [Json.valuesOfItems_cons, List.mem_append] at h
    rcases h with h | h
    · exact (fails_value hf hs v h).bind
    · exact (keeps_value hf v).fails_bind fun _ => (fails_items hf hs rest h).bind

theorem fails_fields (hf : ∀ s, Keeps p (f s)) {s : String} (hs : Fails p (f s)) :
    ∀ fs : Json.Fields, s ∈ Json.valuesOfFields fs → Fails p (fields f fs)
  | [], h => by cases h
  | (_, v) :: rest, h => by
    rw [Json.valuesOfFields_cons, List.mem_append] at h
    rcases h with h | h
    · exact (fails_value hf hs v h).bind
    · exact (keeps_value hf v).fails_bind fun _ => (fails_fields hf hs rest h).bind

end

end Values

/-! ## Blocks -/

section Blocks

variable {f : String → Outlining Outline}

theorem keeps_readTemplate {t : List Char} (h : RepeatBlock.Markless t) :
    Keeps p (readTemplate t) := by
  intro q r q' hq hr
  have hq' : q' = (q.readTemplate t).2 := congrArg Prod.snd (Option.some.inj hr).symm
  rw [hq']
  exact hq.readTemplate h

theorem keeps_item {t : List Char} (h : RepeatBlock.Markless t) (hf : ∀ s, Keeps p (f s)) :
    Keeps p (item f t) := by
  refine (keeps_readTemplate h).bind fun r => ?_
  cases r with
  | error e => exact keeps_pure _
  | ok v =>
    dsimp only
    split
    · exact (keeps_value hf _).bind fun _ => keeps_pure _
    · exact keeps_pure _

theorem keeps_copies {make : Outlining (Except TemplateError (Option Outline))}
    (h : Keeps p make) : ∀ n, Keeps p (copies make n)
  | 0 => keeps_pure _
  | n + 1 => by
    refine h.bind fun r => ?_
    rcases r with e | _ | o
    · exact keeps_pure _
    · exact keeps_pure _
    · exact (keeps_copies h n).bind fun _ => keeps_pure _

theorem keeps_block {b : RepeatBlock} (h : RepeatBlock.Markless b.template.toList)
    (hf : ∀ s, Keeps p (f s)) (name : String) : Keeps p (block f name b) := by
  refine (keeps_copies (keeps_item h hf) b.count).bind fun r => ?_
  rcases r with ⟨os, _ | e⟩ <;> exact keeps_pure _

theorem run_string_of_unnamed {q : Placeholders} {s : String} (h : q.namedBlock? s = none) :
    ∀ depth, (string depth s).run q = some (.text s, q)
  | 0 | _ + 1 => by
    simp only [string, StateT.run_bind, StateT.run_get, Option.pure_def, Option.bind_eq_bind,
      Option.bind_some, h]
    rfl

theorem run_string_of_named {q : Placeholders} {s name : String} {b : RepeatBlock}
    (h : q.namedBlock? s = some (name, b)) (depth : Nat) :
    (string (depth + 1) s).run q = (block (string depth) name b).run q := by
  simp only [string, StateT.run_bind, StateT.run_get, Option.pure_def, Option.bind_eq_bind,
    Option.bind_some, h]

theorem run_string_zero_of_named {q : Placeholders} {s : String} {r : String × RepeatBlock}
    (h : q.namedBlock? s = some r) : (string 0 s).run q = none := by
  simp only [string, StateT.run_bind, StateT.run_get, Option.pure_def, Option.bind_eq_bind,
    Option.bind_some, h]
  rfl

theorem keeps_string : ∀ (depth : Nat) (s : String), Keeps p (string depth s)
  | 0, s => by
    intro q o q' hq h
    cases hs : q.namedBlock? s with
    | none =>
      rw [run_string_of_unnamed hs] at h
      cases h
      exact hq
    | some r =>
      rw [run_string_zero_of_named hs] at h
      cases h
  | depth + 1, s => by
    intro q o q' hq h
    cases hs : q.namedBlock? s with
    | none =>
      rw [run_string_of_unnamed hs] at h
      cases h
      exact hq
    | some r =>
      obtain ⟨name, b⟩ := r
      rw [run_string_of_named hs] at h
      have hm := hq.wellFormed.markless_of_namedBlock? hs
      exact keeps_block hm (keeps_string depth) name q o q' hq h

theorem run_item_of_some (f : String → Outlining Outline) {t : List Char} {q : Placeholders}
    {i : Json} (h : q.firstItem? t = some i) :
    (item f t).run q = (do return .ok (some (← value f i)) : Outlining _).run
      (q.readTemplate t).2 := by
  unfold Placeholders.firstItem? at h
  split at h
  · rename_i v hv
    have hr : (readTemplate t).run q = some (.ok v, (q.readTemplate t).2) := by
      rw [← hv]
      rfl
    rw [item, run_bind, hr]
    simp only [h]
  · cases h

theorem run_item_of_none (f : String → Outlining Outline) {t : List Char}
    {q : Placeholders} (h : q.firstItem? t = none) :
    ∃ r q', (item f t).run q = some (r, q') ∧ ∀ o, r ≠ .ok (some o) := by
  have hr : (readTemplate t).run q = some (q.readTemplate t) := rfl
  unfold Placeholders.firstItem? at h
  rw [item, run_bind, hr]
  split at h
  · rename_i v hv
    refine ⟨.ok none, (q.readTemplate t).2, ?_, fun o => by simp⟩
    simp only [hv, h]
    rfl
  · rename_i e he
    refine ⟨.error e, (q.readTemplate t).2, ?_, fun o => by simp⟩
    simp only [he]
    rfl

theorem succeeds_item {t : List Char} (ht : RepeatBlock.Markless t) (hf : ∀ s, Keeps p (f s))
    (h : ∀ q, p.Alike q → ∀ i, q.firstItem? t = some i →
      ∀ s ∈ i.values, Succeeds p (f s)) : Succeeds p (item f t) := by
  intro q hq
  have hq' := hq.readTemplate ht
  cases hi : q.firstItem? t with
  | none =>
    obtain ⟨r, q', hrun, -⟩ := run_item_of_none f hi
    rw [hrun]
    rfl
  | some i =>
    rw [run_item_of_some f hi]
    have hs := succeeds_value hf i (h q hq i hi)
    exact hs.bind (keeps_value hf i) (fun _ => succeeds_pure _) _ hq'

theorem succeeds_copies {make : Outlining (Except TemplateError (Option Outline))}
    (hk : Keeps p make) (h : Succeeds p make) : ∀ n, Succeeds p (copies make n)
  | 0 => succeeds_pure _
  | n + 1 => by
    refine h.bind hk fun r => ?_
    rcases r with e | _ | o
    · exact succeeds_pure _
    · exact succeeds_pure _
    · exact (succeeds_copies hk h n).bind (keeps_copies hk n) fun _ => succeeds_pure _

theorem succeeds_block {b : RepeatBlock} (hk : Keeps p (item f b.template.toList))
    (h : b.count ≠ 0 → Succeeds p (item f b.template.toList)) (name : String) :
    Succeeds p (block f name b) := by
  have hc : Succeeds p (copies (item f b.template.toList) b.count) := by
    by_cases hb : b.count = 0
    · rw [hb]
      exact succeeds_pure _
    · exact succeeds_copies hk (h hb) b.count
  refine hc.bind (keeps_copies hk b.count) fun r => ?_
  rcases r with ⟨os, _ | e⟩ <;> exact succeeds_pure _

theorem fails_item {t : List Char} (ht : RepeatBlock.Markless t) (hf : ∀ s, Keeps p (f s))
    (h : ∀ q, p.Alike q →
      ∃ i, q.firstItem? t = some i ∧ ∃ s ∈ i.values, Fails p (f s)) : Fails p (item f t) := by
  intro q hq
  obtain ⟨i, hi, s, hs, hfail⟩ := h q hq
  have hq' := hq.readTemplate ht
  rw [run_item_of_some f hi]
  exact (fails_value hf hfail i hs).bind _ hq'

theorem fails_block {b : RepeatBlock} (hb : b.count ≠ 0)
    (h : Fails p (item f b.template.toList)) (name : String) : Fails p (block f name b) := by
  obtain ⟨n, hn⟩ := Nat.exists_eq_succ_of_ne_zero hb
  have hc : Fails p (copies (item f b.template.toList) b.count) := by
    rw [hn]
    exact h.bind
  exact hc.bind

end Blocks

/-! ## Greater depths -/

/-- Where `o` gives something, `o'` gives the same. -/
def Extends (o o' : Outlining α) : Prop :=
  ∀ q r, o.run q = some r → o'.run q = some r

theorem Extends.refl (o : Outlining α) : Extends o o :=
  fun _ _ h => h

theorem Extends.bind {o o' : Outlining α} {k k' : α → Outlining β} (ho : Extends o o')
    (hk : ∀ a, Extends (k a) (k' a)) : Extends (o >>= k) (o' >>= k') := by
  intro q r h
  rw [run_bind] at h ⊢
  split at h
  · rename_i a q₁ ha
    rw [ho q _ ha]
    exact hk a q₁ r h
  · cases h

section Extension

variable {f g : String → Outlining Outline}

mutual

theorem extends_value (h : ∀ s, Extends (f s) (g s)) : ∀ v : Json,
    Extends (value f v) (value g v)
  | .null | .bool _ | .number _ => .refl _
  | .string s => h s
  | .array vs => (extends_items h vs).bind fun _ => .refl _
  | .object fs => (extends_fields h fs).bind fun _ => .refl _

theorem extends_items (h : ∀ s, Extends (f s) (g s)) : ∀ vs : List Json,
    Extends (items f vs) (items g vs)
  | [] => .refl _
  | v :: rest => (extends_value h v).bind fun _ => (extends_items h rest).bind fun _ => .refl _

theorem extends_fields (h : ∀ s, Extends (f s) (g s)) : ∀ fs : Json.Fields,
    Extends (fields f fs) (fields g fs)
  | [] => .refl _
  | (_, v) :: rest =>
    (extends_value h v).bind fun _ => (extends_fields h rest).bind fun _ => .refl _

end

theorem extends_item (h : ∀ s, Extends (f s) (g s)) (t : List Char) :
    Extends (item f t) (item g t) := by
  refine (Extends.refl _).bind fun r => ?_
  cases r with
  | error e => exact .refl _
  | ok v =>
    dsimp only
    split
    · exact (extends_value h _).bind fun _ => .refl _
    · exact .refl _

theorem extends_copies {make make' : Outlining (Except TemplateError (Option Outline))}
    (h : Extends make make') : ∀ n, Extends (copies make n) (copies make' n)
  | 0 => .refl _
  | n + 1 => by
    refine h.bind fun r => ?_
    rcases r with e | _ | o
    · exact .refl _
    · exact .refl _
    · exact (extends_copies h n).bind fun _ => .refl _

theorem extends_block (h : ∀ s, Extends (f s) (g s)) (name : String) (b : RepeatBlock) :
    Extends (block f name b) (block g name b) :=
  (extends_copies (extends_item h _) b.count).bind fun _ => .refl _

end Extension

theorem extends_string_succ : ∀ (depth : Nat) (s : String),
    Extends (string depth s) (string (depth + 1) s)
  | depth, s => by
    intro q r h
    cases hs : q.namedBlock? s with
    | none =>
      rw [run_string_of_unnamed hs] at h ⊢
      exact h
    | some named =>
      obtain ⟨name, b⟩ := named
      cases depth with
      | zero =>
        rw [run_string_zero_of_named hs] at h
        cases h
      | succ depth =>
        rw [run_string_of_named hs] at h ⊢
        exact extends_block (extends_string_succ depth) name b q r h

/-- An outline that is made down to some depth is the same down to any greater one. -/
theorem extends_string {depth depth' : Nat} (h : depth ≤ depth') (s : String) :
    Extends (string depth s) (string depth' s) := by
  induction h with
  | refl => exact .refl _
  | step _ ih => exact fun q r hr => extends_string_succ _ s q r (ih q r hr)

end Outlining

end JsonTemplate
