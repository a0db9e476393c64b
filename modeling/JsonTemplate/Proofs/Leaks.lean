import JsonTemplate.Proofs.Failure
import JsonTemplate.Proofs.Refusals
import JsonTemplate.Proofs.Termination

/-!
# Placeholders in results

What a template unrolls to may have placeholders left that nothing undoes any more. If it has none
(`Template.Undone`), then neither has its result, for any source whose answers are unmarked, but for
strings that are joined across a seam; if it has some, a source that refuses every call shows them
(`Template.expand_undone`). None is left of an unmarked text whose placeholders all stand where they
are undone (`Template.Placed`): what is evaluated are harmless strings, and blocks are read again
from tidy texts.
-/

namespace JsonTemplate

open Text RepeatBlock

variable {σ α β : Type}

/-! ## Reading -/

open Resolving in
theorem harmless_of_readTemplate {k : Nat} {p : Placeholders} {t : List Char} (hp : p.WellFormed)
    (ht : Tidy k (extract t p).1) (he : Json.Escapeless (extract t p).1)
    (hplaced : Piece.Placed (Piece.cut (extract t p).1)) {v : Json}
    (h : (p.readTemplate t).1 = .ok v) :
    (∀ s ∈ v.values, (Harmless s ∨ Placeholder.IsBlockBelow k s.toList)
        ∧ s.toList <:+: (extract t p).1) ∧ ∀ k ∈ v.keys, Unmarked k.toList := by
  obtain ⟨w, hw, rfl⟩ := Placeholders.exists_read_of_readTemplate h
  exact harmless_of_read (hp.extract t) ht he hplaced hw

namespace Placeholders

/-- Each number below the next one is that of a block. -/
def Complete (p : Placeholders) : Prop :=
  ∀ n < p.nextBlock, (p.block? (Placeholder.blockName n)).isSome

theorem complete_empty : ({} : Placeholders).Complete := by
  intro n hn
  cases hn

theorem Complete.recordBlock {p : Placeholders} (h : p.Complete) (block : RepeatBlock) :
    (p.recordBlock block).2.Complete := by
  intro n hn
  simp only [Placeholders.recordBlock, block?, List.lookup_append, Option.isSome_or,
    Bool.or_eq_true]
  rcases Nat.lt_succ_iff_lt_or_eq.1 hn with hn | rfl
  · exact .inl (h n hn)
  · exact .inr (by simp)

theorem Complete.isSome_namedBlock? {p : Placeholders} (h : p.Complete) {s : String}
    (hs : Placeholder.IsBlockBelow p.nextBlock s.toList) : (p.namedBlock? s).isSome := by
  obtain ⟨n, hn, hs⟩ := hs
  rw [namedBlock?, hs, Placeholder.blockName?_ofBlock, Option.bind_some, String.ofList_toList,
    Option.isSome_map]
  exact h n hn

/-- The given texts are tidy, with their placeholders in place, and each placeholder of a block in
them names a block of the table, whose text is one of them. -/
structure Sound (p : Placeholders) (k : Nat) (us : List (List Char)) : Prop where
  tidy : ∀ u ∈ us, Tidy k u
  escapeless : ∀ u ∈ us, Json.Escapeless u
  placed : ∀ u ∈ us, Piece.Placed (Piece.cut u)
  mem : ∀ b ∈ p.blocks, b.2.template.toList ∈ us
  named : ∀ s : String, Placeholder.IsBlockBelow k s.toList → (p.namedBlock? s).isSome

end Placeholders

/-! ## Outlines -/

/-- The texts of an outline are harmless and stand in the given ones, and its names are unmarked. -/
structure Sound (us : List (List Char)) (texts keys : List String) : Prop where
  harmless : ∀ s ∈ texts, Resolving.Harmless s
  origin : ∀ s ∈ texts, ∃ u ∈ us, s.toList <:+: u
  keys : ∀ k ∈ keys, Unmarked k.toList

theorem sound_nil (us : List (List Char)) : Sound us [] [] where
  harmless _ h := by cases h
  origin _ h := by cases h
  keys _ h := by cases h

theorem Sound.append {us : List (List Char)} {ts ts' ks ks' : List String} (h : Sound us ts ks)
    (h' : Sound us ts' ks') : Sound us (ts ++ ts') (ks ++ ks') where
  harmless := List.forall_mem_append.2 ⟨h.harmless, h'.harmless⟩
  origin := List.forall_mem_append.2 ⟨h.origin, h'.origin⟩
  keys := List.forall_mem_append.2 ⟨h.keys, h'.keys⟩

theorem Sound.field {us : List (List Char)} {ts ks : List String} (h : Sound us ts ks)
    {key : String} (hkey : Unmarked key.toList) : Sound us ts (key :: ks) where
  harmless := h.harmless
  origin := h.origin
  keys := List.forall_mem_cons.2 ⟨hkey, h.keys⟩

namespace Outlining

/-- Whatever has been read, what `o` gives has the property. -/
def Yields (p : Placeholders) (P : α → Prop) (o : Outlining α) : Prop :=
  ∀ q a q', p.Alike q → o.run q = some (a, q') → P a

variable {p : Placeholders} {us : List (List Char)} {f : String → Outlining Outline}

theorem yields_pure {P : α → Prop} {a : α} (h : P a) : Yields p P (pure a) := by
  intro q a' q' _ hrun
  cases hrun
  exact h

theorem Yields.bind {P : α → Prop} {Q : β → Prop} {o : Outlining α} {k : α → Outlining β}
    (ho : Yields p P o) (hkeep : Keeps p o) (hk : ∀ a, P a → Yields p Q (k a)) :
    Yields p Q (o >>= k) := by
  intro q b q' hq h
  rw [run_bind] at h
  split at h
  · rename_i a q₁ ha
    exact hk a (ho q a q₁ hq ha) q₁ b q' (hkeep q a q₁ hq ha) h
  · cases h

mutual

theorem yields_value (hf : ∀ s, Keeps p (f s)) : ∀ v : Json,
    (∀ s ∈ v.values, Yields p (fun o => Sound us o.texts o.keys) (f s)) →
    (∀ k ∈ v.keys, Unmarked k.toList) → Yields p (fun o => Sound us o.texts o.keys) (value f v)
  | .null, _, _ | .bool _, _, _ | .number _, _, _ => yields_pure (sound_nil us)
  | .string s, h, _ => h s (by simp)
  | .array vs, h, hk =>
    (yields_items hf vs h hk).bind (keeps_items hf vs) fun _ hos => yields_pure hos
  | .object fs, h, hk =>
    (yields_fields hf fs h hk).bind (keeps_fields hf fs) fun _ hos => yields_pure hos

theorem yields_items (hf : ∀ s, Keeps p (f s)) : ∀ vs : List Json,
    (∀ s ∈ Json.valuesOfItems vs, Yields p (fun o => Sound us o.texts o.keys) (f s)) →
    (∀ k ∈ Json.keysOfItems vs, Unmarked k.toList) →
      Yields p (fun os => Sound us (Outline.textsOfItems os) (Outline.keysOfItems os)) (items f vs)
  | [], _, _ => yields_pure (sound_nil us)
  | v :: rest, h, hk => by
    rw [Json.valuesOfItems_cons, List.forall_mem_append] at h
    rw [Json.keysOfItems_cons, List.forall_mem_append] at hk
    refine (yields_value hf v h.1 hk.1).bind (keeps_value hf v) fun o ho => ?_
    exact (yields_items hf rest h.2 hk.2).bind (keeps_items hf rest) fun os hos =>
      yields_pure (ho.append hos)

theorem yields_fields (hf : ∀ s, Keeps p (f s)) : ∀ fs : Json.Fields,
    (∀ s ∈ Json.valuesOfFields fs, Yields p (fun o => Sound us o.texts o.keys) (f s)) →
    (∀ k ∈ Json.keysOfFields fs, Unmarked k.toList) →
      Yields p (fun os => Sound us (Outline.textsOfFields os) (Outline.keysOfFields os))
        (fields f fs)
  | [], _, _ => yields_pure (sound_nil us)
  | (key, v) :: rest, h, hk => by
    rw [Json.valuesOfFields_cons, List.forall_mem_append] at h
    rw [Json.keysOfFields_cons, List.forall_mem_cons, List.forall_mem_append] at hk
    refine (yields_value hf v h.1 hk.2.1).bind (keeps_value hf v) fun o ho => ?_
    exact (yields_fields hf rest h.2 hk.2.2).bind (keeps_fields hf rest) fun os hos =>
      yields_pure ((ho.append hos).field hk.1)

end

theorem yields_item {t : List Char} (ht : Markless t) (hf : ∀ s, Keeps p (f s))
    (h : ∀ q, p.Alike q → ∀ i, q.firstItem? t = some i →
      (∀ s ∈ i.values, Yields p (fun o => Sound us o.texts o.keys) (f s))
        ∧ ∀ k ∈ i.keys, Unmarked k.toList) :
    Yields p (fun r => ∀ o, r = .ok (some o) → Sound us o.texts o.keys) (item f t) := by
  intro q r q' hq hrun o ho
  cases hi : q.firstItem? t with
  | none =>
    obtain ⟨r', q₁, hrun', hne⟩ := run_item_of_none f hi
    rw [hrun'] at hrun
    cases hrun
    exact absurd ho (hne o)
  | some i =>
    obtain ⟨hs, hk⟩ := h q hq i hi
    rw [run_item_of_some f hi] at hrun
    have hy : Yields p (fun r => ∀ o, r = Except.ok (some o) → Sound us o.texts o.keys)
        (do return .ok (some (← value f i)) : Outlining (Except TemplateError (Option Outline))) :=
      (yields_value hf i hs hk).bind (keeps_value hf i) fun o ho => yields_pure fun o' ho' => by
        cases ho'
        exact ho
    exact hy _ _ _ (hq.readTemplate ht) hrun o ho

theorem yields_copies {make : Outlining (Except TemplateError (Option Outline))}
    (hkeep : Keeps p make)
    (h : Yields p (fun r => ∀ o, r = .ok (some o) → Sound us o.texts o.keys) make) : ∀ n,
      Yields p (fun r => Sound us (Outline.textsOfItems r.1) (Outline.keysOfItems r.1))
        (copies make n)
  | 0 => yields_pure (sound_nil us)
  | n + 1 => by
    refine h.bind hkeep fun r hr => ?_
    rcases r with e | _ | o
    · exact yields_pure (sound_nil us)
    · exact yields_pure (sound_nil us)
    · exact (yields_copies hkeep h n).bind (keeps_copies hkeep n) fun os hos =>
        yields_pure ((hr o rfl).append hos)

theorem yields_block {b : RepeatBlock} (hkeep : Keeps p (item f b.template.toList))
    (h : Yields p (fun r => ∀ o, r = .ok (some o) → Sound us o.texts o.keys)
      (item f b.template.toList)) (name : String) :
    Yields p (fun o => Sound us o.texts o.keys) (block f name b) := by
  refine (yields_copies hkeep h b.count).bind (keeps_copies hkeep b.count) fun r hr => ?_
  rcases r with ⟨os, _ | e⟩
  · exact yields_pure hr
  · exact yields_pure (sound_nil us)

/-- The strings of a block's first item are harmless or name blocks, as those of a text are. -/
theorem harmless_of_firstItem? {k : Nat} (hp : p.Sound k us) {b : String × RepeatBlock}
    (hb : b ∈ p.blocks) (hm : Markless b.2.template.toList) {q : Placeholders} (hq : p.Alike q)
    {i : Json} (hi : q.firstItem? b.2.template.toList = some i) :
    (∀ x ∈ i.values, (Resolving.Harmless x ∨ (p.namedBlock? x).isSome)
        ∧ ∃ u ∈ us, x.toList <:+: u)
      ∧ ∀ k ∈ i.keys, Unmarked k.toList := by
  have hus := hp.mem b hb
  obtain ⟨v, hv, hvi⟩ := Placeholders.firstItem?_eq_some hi
  have hread := harmless_of_readTemplate (k := k) (t := b.2.template.toList) hq.wellFormed
  rw [extract_of_markless hm] at hread
  obtain ⟨hvalues, hkeys⟩ := hread (hp.tidy _ hus) (hp.escapeless _ hus) (hp.placed _ hus) hv
  obtain ⟨hsub, hsubkeys⟩ := Placeholders.subset_of_firstItem? hvi
  refine ⟨fun x hx => ?_, fun k hk => hkeys k (hsubkeys hk)⟩
  obtain ⟨hx, hpart⟩ := hvalues x (hsub hx)
  exact ⟨hx.imp_right (hp.named x), _, hus, hpart⟩

/-- A string that names no block is its own outline. -/
theorem sound_text {q : Placeholders} (hq : p.Alike q) {s : String} (hs : q.namedBlock? s = none)
    (h : Resolving.Harmless s ∨ (p.namedBlock? s).isSome) (ho : ∃ u ∈ us, s.toList <:+: u) :
    Sound us (Outline.text s).texts (Outline.text s).keys := by
  rw [Placeholders.namedBlock?_congr hq.blocks] at hs
  rw [hs, Option.isSome_none] at h
  have hharm := h.resolve_right Bool.false_ne_true
  refine ⟨fun x hx => ?_, fun x hx => ?_, fun k hk => by cases hk⟩
  · rw [List.mem_singleton.1 hx]
    exact hharm
  · rw [List.mem_singleton.1 hx]
    exact ho

/-- The outline of a string that is harmless or names a block of a sound table. -/
theorem yields_string {k : Nat} (hp : p.Sound k us) : ∀ (depth : Nat) (s : String),
    (Resolving.Harmless s ∨ (p.namedBlock? s).isSome) → (∃ u ∈ us, s.toList <:+: u) →
      Yields p (fun o => Sound us o.texts o.keys) (string depth s) := by
  intro depth s h ho q o q' hq hrun
  cases hs : q.namedBlock? s with
  | none =>
    rw [run_string_of_unnamed hs] at hrun
    cases hrun
    exact sound_text hq hs h ho
  | some r =>
    obtain ⟨name, b⟩ := r
    cases depth with
    | zero =>
      rw [run_string_zero_of_named hs] at hrun
      cases hrun
    | succ depth =>
      rw [run_string_of_named hs] at hrun
      have hm := hq.wellFormed.markless_of_namedBlock? hs
      have hb := Placeholders.mem_blocks_of_block? (Placeholders.block?_of_namedBlock? hs)
      rw [hq.blocks] at hb
      have hkeep := keeps_string (p := p) depth
      refine yields_block (keeps_item hm hkeep) (yields_item hm hkeep ?_) name q o q' hq hrun
      intro q₁ hq₁ i hi
      obtain ⟨hvalues, hkeys⟩ := harmless_of_firstItem? hp hb hm hq₁ hi
      exact ⟨fun x hx => yields_string hp depth x (hvalues x hx).1 (hvalues x hx).2, hkeys⟩

end Outlining

/-! ## Templates -/

namespace Template

/-- The texts that are read while a template is expanded: what is left of it without its blocks,
and the blocks. -/
def readTexts (t : List Char) : List (List Char) :=
  match expandedText? t with
  | some text => (extract text {}).1 :: (extract text {}).2.blocks.map fun b => b.2.template.toList
  | none => []

/-- In no text that is read a concatenation is a name or has a block within it that its evaluation
brings up, no name is a block or has one in it, and no block stands behind a backslash, with which
the quote of its placeholder would make an escape. -/
def Placed (t : List Char) : Prop :=
  ∀ u ∈ readTexts t, ¬ ['\\', '"'] <:+: u ∧ Piece.Placed (Piece.cut u)

instance (t : List Char) : Decidable (Placed t) :=
  inferInstanceAs
    (Decidable (∀ u ∈ readTexts t, ¬ ['\\', '"'] <:+: u ∧ Piece.Placed (Piece.cut u)))

/-- `o` is the outline of each round of the template's expansion. -/
def HasOutline (t : List Char) (allowance : Nat) (o : Outline) : Prop :=
  ∃ text v p p', expandedText? t = some text ∧ Placeholders.readTemplate text {} = (.ok v, p)
    ∧ (Outlining.value (Outlining.string (p.blocks.length + allowance)) v).run p = some (o, p')

/-- Once the template is unrolled, its names are unmarked, and its strings harmless: every
placeholder in it has been undone. -/
def Undone (t : List Char) (allowance : Nat) : Prop :=
  ∀ o, HasOutline t allowance o →
    (∀ s ∈ o.texts, Resolving.Harmless s) ∧ ∀ k ∈ o.keys, Unmarked k.toList

/-- The names of a value are unmarked, and so are its strings, but for what the source makes of a
concatenation in the outline, where a placeholder may begin across a seam. -/
structure Clean (source : ValueSource σ) (t : List Char) (allowance : Nat) (v : Json) : Prop where
  keys : ∀ k ∈ v.keys, Unmarked k.toList
  values : ∀ x ∈ v.values, Unmarked x.toList
    ∨ ∃ o, HasOutline t allowance o ∧ ∃ s ∈ o.texts, Expression.Joins source s.toList x

variable {source : ValueSource σ} {t : List Char} {allowance : Nat}

theorem HasOutline.unique {o o' : Outline} (h : HasOutline t allowance o)
    (h' : HasOutline t allowance o') : o = o' := by
  obtain ⟨text, v, p, p', htext, hread, ho⟩ := h
  obtain ⟨text', v', q, q', htext', hread', ho'⟩ := h'
  rw [htext] at htext'
  cases htext'
  rw [hread] at hread'
  cases hread'
  rw [ho] at ho'
  cases ho'
  rfl

theorem HasOutline.unrolls {o : Outline} (h : HasOutline t allowance o) : Unrolls t allowance := by
  obtain ⟨text, v, p, p', htext, hread, hrun⟩ := h
  intro text' htext' v' q hread'
  rw [htext] at htext'
  cases htext'
  rw [hread] at hread'
  cases hread'
  rw [hrun]
  rfl

theorem HasOutline.failure?_eq_none {o : Outline} (h : HasOutline t allowance o) :
    failure? t = none := by
  obtain ⟨text, v, p, p', htext, hread, -⟩ := h
  have hcheck : check text = .ok () := by
    rw [check_eq, hread]
  unfold expandedText? at htext
  unfold failure?
  rcases hp : Plan.ofText? t with _ | ⟨c, text'⟩ | ⟨text', n⟩ <;> simp only [hp] at htext ⊢
  · cases htext
  · cases htext
    rw [hcheck]
  · split at htext
    · cases htext
    · cases htext
      rw [hcheck]

/-! ### Rounds -/

/-- What a round gives is what its outline evaluates to. -/
def Round (source : ValueSource σ) (t : List Char) (allowance : Nat) (v : Json) : Prop :=
  ∃ o, HasOutline t allowance o ∧ ∃ l l', (o.evaluate source).run l = .ok (v, l')

theorem round_of_expandOnce {text : List Char} (htext : expandedText? t = some text) {s s' : σ}
    {r : Expanded} (h : (expandOnce source text allowance).run.run s = .ok (.ok r, s')) :
    Round source t allowance r.value := by
  rcases hr : Placeholders.readTemplate text {} with ⟨e | v, p⟩
  · rw [run_expandOnce, hr] at h
    cases h
  · obtain ⟨o, p', ho, w, l, hv, hr'⟩ := exists_outline_of_run hr h
    cases hr'
    exact ⟨o, ⟨text, v, p, p', htext, hr, ho⟩, _, _, hv⟩

theorem exists_rounds_of_expandTimes {text : List Char} : ∀ {n : Nat} {made : List Expanded}
    {s s' : σ} {r : Expanded},
      (expandTimes source text n made allowance).run.run s = .ok (.ok r, s') →
      ∃ rounds, r = concat (made.reverse ++ rounds) ∧ rounds.length = n ∧ ∀ x ∈ rounds, ∃ s s',
        (expandOnce source text allowance).run.run s = .ok (.ok x, s')
  | 0, made, s, s', r, h => by
    cases h
    exact ⟨[], by rw [List.append_nil], rfl, fun x hx => by cases hx⟩
  | n + 1, made, s, s', r, h => by
    rw [expandTimes, run_bind] at h
    rcases hx : (expandOnce source text allowance).run.run s with halt | ⟨e | x, s₁⟩
    · rw [hx] at h
      cases h
    · rw [hx] at h
      cases h
    · rw [hx] at h
      obtain ⟨rounds, rfl, hlength, hrounds⟩ := exists_rounds_of_expandTimes h
      refine ⟨x :: rounds, by simp, by rw [List.length_cons, hlength], fun y hy => ?_⟩
      rcases List.mem_cons.1 hy with rfl | hy
      · exact ⟨s, s₁, hx⟩
      · exact hrounds y hy

theorem mem_itemsOf (v : Json) (x : String) :
    ((∃ w ∈ itemsOf v, x ∈ w.values) ↔ x ∈ v.values)
      ∧ ((∃ w ∈ itemsOf v, x ∈ w.keys) ↔ x ∈ v.keys) := by
  cases v with
  | array items => exact ⟨Json.mem_valuesOfItems.symm, Json.mem_keysOfItems.symm⟩
  | _ => simp [itemsOf]

theorem exists_mem_flatMap_itemsOf {rounds : List Expanded} {f : Json → List String} {x : String}
    (h : ∀ v, (∃ w ∈ itemsOf v, x ∈ f w) ↔ x ∈ f v) :
    (∃ w ∈ rounds.flatMap fun r => itemsOf r.value, x ∈ f w) ↔ ∃ r ∈ rounds, x ∈ f r.value := by
  constructor
  · rintro ⟨w, hw, hx⟩
    obtain ⟨r, hr, hw⟩ := List.mem_flatMap.1 hw
    exact ⟨r, hr, (h r.value).1 ⟨w, hw, hx⟩⟩
  · rintro ⟨r, hr, hx⟩
    obtain ⟨w, hw, hx⟩ := (h r.value).2 hx
    exact ⟨w, List.mem_flatMap.2 ⟨r, hr, hw⟩, hx⟩

theorem mem_concat (rounds : List Expanded) (x : String) :
    (x ∈ (concat rounds).value.values ↔ ∃ r ∈ rounds, x ∈ r.value.values)
      ∧ (x ∈ (concat rounds).value.keys ↔ ∃ r ∈ rounds, x ∈ r.value.keys) :=
  ⟨Json.mem_valuesOfItems.trans (exists_mem_flatMap_itemsOf fun v => (mem_itemsOf v x).1),
    Json.mem_keysOfItems.trans (exists_mem_flatMap_itemsOf fun v => (mem_itemsOf v x).2)⟩

/-- The strings of a result are those of its rounds. There are rounds if a text is expanded. -/
theorem exists_rounds_of_expand {s s' : σ} {r : Expanded}
    (h : (expand source t allowance).run.run s = .ok (.ok r, s')) :
    ∃ rounds : List Expanded, (∀ x ∈ rounds, Round source t allowance x.value)
      ∧ ((expandedText? t).isSome → rounds ≠ [])
      ∧ ∀ x, (x ∈ r.value.values ↔ ∃ y ∈ rounds, x ∈ y.value.values)
        ∧ (x ∈ r.value.keys ↔ ∃ y ∈ rounds, x ∈ y.value.keys) := by
  have hround := @round_of_expandOnce σ source t allowance
  unfold expand at h
  unfold expandedText? at hround ⊢
  rcases hp : Plan.ofText? t with _ | ⟨c, text⟩ | ⟨text, n⟩ <;> simp only [hp] at h hround ⊢
  · cases h
  · exact ⟨[r], by simpa using hround rfl h, by simp, by simp⟩
  · rw [run_repeated] at h
    cases hc : check text with
    | error e =>
      rw [hc] at h
      cases h
    | ok u =>
      rw [hc] at h
      obtain ⟨rounds, rfl, hlength, hrounds⟩ := exists_rounds_of_expandTimes h
      rw [List.reverse_nil, List.nil_append]
      refine ⟨rounds, fun x hx => ?_, fun hn => ?_, mem_concat rounds⟩
      · have hn : n ≠ 0 := by
          rintro rfl
          rw [List.length_eq_zero_iff.1 hlength] at hx
          cases hx
        obtain ⟨s, s', hx⟩ := hrounds x hx
        exact hround (by rw [if_neg hn]) hx
      · rintro rfl
        rw [List.length_nil] at hlength
        rw [← hlength, if_pos rfl] at hn
        cases hn

/-! ### Results -/

theorem clean_of_undone (hu : Undone t allowance) (hs : source.Unmarked) {s s' : σ} {r : Expanded}
    (h : (expand source t allowance).run.run s = .ok (.ok r, s')) :
    Clean source t allowance r.value := by
  obtain ⟨rounds, hrounds, -, hmem⟩ := exists_rounds_of_expand h
  have hgives : ∀ y ∈ rounds, ∃ o, HasOutline t allowance o
      ∧ (∀ x ∈ y.value.values, Outline.Seamed source o.texts x)
      ∧ ∀ k ∈ y.value.keys, Unmarked k.toList := by
    intro y hy
    obtain ⟨o, ho, l, l', hv⟩ := hrounds y hy
    exact ⟨o, ho, Outline.gives_evaluate hs o (hu o ho).1 (hu o ho).2 l _ l' hv⟩
  refine ⟨fun k hk => ?_, fun x hx => ?_⟩
  · obtain ⟨y, hy, hk⟩ := (hmem k).2.1 hk
    obtain ⟨o, -, -, hkeys⟩ := hgives y hy
    exact hkeys k hk
  · obtain ⟨y, hy, hx⟩ := (hmem x).1.1 hx
    obtain ⟨o, ho, hvalues, -⟩ := hgives y hy
    exact (hvalues x hx).imp_right fun hseam => ⟨o, ho, hseam⟩

/-- A template with an outline has a result from every source that answers. -/
theorem exists_run_of_hasOutline (h : source.Answers) {o : Outline}
    (ho : HasOutline t allowance o) (s : σ) :
    ∃ r s', (expand source t allowance).run.run s = .ok (.ok r, s') := by
  obtain ⟨⟨e | r, s'⟩, hr⟩ := run_expand_of_unrolls h ho.unrolls s
  · rw [run_expand_eq_error_iff, ho.failure?_eq_none] at hr
    cases hr.1
  · exact ⟨r, s', hr⟩

/-- What is not undone is left in the result where the source refuses every call. -/
theorem exists_marked_of_not_undone (h : ¬ Undone t allowance) :
    ∃ r, (expand ValueSource.refusing t allowance).run.run () = .ok (.ok r, ())
      ∧ ¬ r.value.Unmarked := by
  simp only [Undone, not_forall] at h
  obtain ⟨o, ho, hleft⟩ := h
  obtain ⟨r, s', hr⟩ := exists_run_of_hasOutline ValueSource.answers_refusing ho ()
  refine ⟨r, hr, fun hunmarked => hleft ?_⟩
  obtain ⟨rounds, hrounds, hne, hmem⟩ := exists_rounds_of_expand hr
  obtain ⟨text, -, -, -, htext, -⟩ := id ho
  obtain ⟨y, hy⟩ := List.exists_mem_of_ne_nil _ (hne (by rw [htext]; rfl))
  obtain ⟨o', ho', l, l', hv⟩ := hrounds y hy
  obtain rfl := HasOutline.unique ho ho'
  obtain ⟨hvalues, hkeys⟩ := Outline.gives_evaluate_refusing o l _ l' hv
  refine ⟨fun s hs => Resolving.harmless_of_unmarked_fallback ?_, fun k hk => ?_⟩
  · refine hunmarked.values _ ((hmem _).1.2 ⟨y, hy, ?_⟩)
    rw [hvalues]
    exact List.mem_map_of_mem hs
  · exact hunmarked.keys k ((hmem k).2.2 ⟨y, hy, by rwa [hkeys]⟩)

/-! ### Placed texts -/

theorem readTexts_eq {text : List Char} (htext : expandedText? t = some text) :
    readTexts t = (extract text {}).1
      :: (extract text {}).2.blocks.map fun b => b.2.template.toList := by
  rw [readTexts, htext]

/-- The table that an unmarked and placed template is read with. -/
theorem sound_readTexts {text : List Char} (htext : expandedText? t = some text) (ht : Unmarked t)
    (he : Json.Escapeless t) (hplaced : Placed t) {p : Placeholders}
    (hblocks : p.blocks = (extract text {}).2.blocks) :
    p.Sound (extract text {}).2.nextBlock (readTexts t) := by
  have hpart := infix_of_expandedText? htext
  obtain ⟨hfront, hordered⟩ := tidy_extractFrom [] text {}
    (.of_unmarked 0 (ht.part hpart) (he.part hpart)) Placeholders.ordered_empty
  have hcomplete : (extract text {}).2.Complete :=
    extractFrom_induction (fun _ _ _ hq _ => hq.recordBlock _) [] text {} trivial
      Placeholders.complete_empty
  have htidy : ∀ u ∈ readTexts t, Tidy (extract text {}).2.nextBlock u := by
    rw [readTexts_eq htext, List.forall_mem_cons, List.forall_mem_map]
    refine ⟨hfront, fun b hb => ?_⟩
    obtain ⟨n, hn, -, hb⟩ := hordered b hb
    exact hb.mono hn.le
  refine ⟨htidy, fun u hu => (htidy u hu).escapeless (hplaced u hu).1, fun u hu => (hplaced u hu).2,
    fun b hb => ?_, fun s hs => ?_⟩
  · rw [hblocks] at hb
    rw [readTexts_eq htext]
    exact List.mem_cons_of_mem _ (List.mem_map_of_mem hb)
  · rw [Placeholders.namedBlock?_congr hblocks]
    exact hcomplete.isSome_namedBlock? hs

/-- The outline of an unmarked and placed template. -/
theorem sound_of_placed (ht : Unmarked t) (he : Json.Escapeless t) (hplaced : Placed t)
    {o : Outline} (ho : HasOutline t allowance o) : Sound (readTexts t) o.texts o.keys := by
  obtain ⟨text, v, p, p', htext, hread, hrun⟩ := ho
  have hp := wellFormed_of_readTemplate hread
  have hblocks := Placeholders.readTemplate_blocks text {}
  rw [hread] at hblocks
  have hsound := sound_readTexts htext ht he hplaced hblocks
  have hfront : (extract text {}).1 ∈ readTexts t := by
    rw [readTexts_eq htext]
    exact List.mem_cons_self
  obtain ⟨hvalues, hkeys⟩ := harmless_of_readTemplate Placeholders.wellFormed_empty
    (hsound.tidy _ hfront) (hsound.escapeless _ hfront) (hsound.placed _ hfront)
    (congrArg Prod.fst hread)
  refine Outlining.yields_value (Outlining.keeps_string _) v (fun s hs => ?_) hkeys p o p' hp.alike
    hrun
  obtain ⟨hs, hpart⟩ := hvalues s hs
  exact Outlining.yields_string hsound _ s (hs.imp_right (hsound.named s)) ⟨_, hfront, hpart⟩

/-- If every placeholder of a template is undone, each source whose answers are unmarked gives a
clean result, and if not, a source that refuses every call gives a result in which one is left. In
an unmarked text without escapes that is placed all are undone, and what is evaluated stands in the
texts that are read. -/
theorem expand_undone (t : List Char) (n : Nat) :
    (Undone t n → ∀ {σ : Type} (source : ValueSource σ), source.Unmarked → ∀ s s' r,
        (expand source t n).run.run s = .ok (.ok r, s') → Clean source t n r.value)
      ∧ (¬ Undone t n → ∃ r, (expand ValueSource.refusing t n).run.run () = .ok (.ok r, ())
        ∧ ¬ r.value.Unmarked)
      ∧ (Unmarked t → Json.Escapeless t → Placed t → Undone t n
        ∧ ∀ o, HasOutline t n o → ∀ s ∈ o.texts, ∃ u ∈ readTexts t, s.toList <:+: u) := by
  refine ⟨fun hu _ _ hs _ _ _ h => clean_of_undone hu hs h, exists_marked_of_not_undone,
    fun ht he hplaced => ⟨fun o ho => ?_, fun o ho => (sound_of_placed ht he hplaced ho).origin⟩⟩
  have hsound := sound_of_placed ht he hplaced ho
  exact ⟨hsound.harmless, hsound.keys⟩

/-- A block within a block, one in the arguments of a directive that is joined, and a literal that
ends where a placeholder may go on. -/
def seam : List Char :=
  ("\x7b\"a\": [\x7b\"b\": \"__EX\" + @x, \"c\": [@y.z(\\d)] @repeat(2)\x7d] @repeat(1), "
    ++ "\"d\": @y.z([1] @repeat(2)) + \"e\"\x7d").toList

/-- A concatenation that is the name of a field. -/
def joinedName : List Char :=
  "\x7b\"x\" + @y: 1\x7d".toList

/-- What shows of a result tells that there is one. -/
theorem exists_run_of_toOption {x : Except Halt (Except TemplateError Expanded × σ)}
    {f : Expanded → α} {a : α}
    (h : x.toOption.map (fun r => r.1.toOption.map f) = some (some a)) :
    ∃ r s, x = .ok (.ok r, s) ∧ f r = a := by
  rcases x with halt | ⟨e | r, s⟩
  · cases h
  · cases h
  · exact ⟨r, s, rfl, Option.some.inj (Option.some.inj h)⟩

theorem exists_run_joinedName : ∃ r s, (expand ValueSource.refusing joinedName).run.run ()
    = .ok (.ok r, s) ∧ r.value.keys = [Placeholder.ofExpression 0] :=
  exists_run_of_toOption (f := fun r : Expanded => r.value.keys) (by decide +kernel)

theorem expand_undone_seam : Unmarked seam ∧ Json.Escapeless seam ∧ Placed seam
    ∧ (ValueSource.constant (.string "PR_0__")).Unmarked
    ∧ (∃ r, (expand (ValueSource.constant (.string "PR_0__")) seam).run.run () = .ok (.ok r, ())
      ∧ r.value.values = ["__EXPR_0__", "y.z", "y.z", "y.ze"]
      ∧ Clean (ValueSource.constant (.string "PR_0__")) seam Expanding.nestingAllowance r.value)
    ∧ ¬ Undone joinedName Expanding.nestingAllowance := by
  have hs : (ValueSource.constant (.string "PR_0__")).Unmarked :=
    ValueSource.unmarked_constant (Json.unmarked_string (by decide +kernel))
  have hu : Unmarked seam := by decide +kernel
  have he : Json.Escapeless seam := by decide +kernel
  have hplaced : Placed seam := by decide +kernel
  refine ⟨hu, he, hplaced, hs, ?_, fun hundone => ?_⟩
  · obtain ⟨hclean, -, hundone⟩ := expand_undone seam Expanding.nestingAllowance
    obtain ⟨r, s, hr, hvalues⟩ : ∃ r s, (expand (ValueSource.constant (.string "PR_0__"))
        seam).run.run () = .ok (.ok r, s)
          ∧ r.value.values = ["__EXPR_0__", "y.z", "y.z", "y.ze"] :=
      exists_run_of_toOption (f := fun r : Expanded => r.value.values) (by decide +kernel)
    exact ⟨r, hr, hvalues, hclean (hundone hu he hplaced).1 _ hs () s r hr⟩
  · obtain ⟨r, s, hr, hkeys⟩ := exists_run_joinedName
    have hclean := (expand_undone joinedName Expanding.nestingAllowance).1 hundone _
      ValueSource.unmarked_refusing () s r hr
    exact not_unmarked_ofExpression 0 (hclean.keys _ (by rw [hkeys]; exact List.mem_cons_self))

/-- What is put in place of a concatenation stays where it is a name. -/
theorem expand_joinedName_marked : ¬ ∀ (t : List Char) (source : ValueSource Unit) (r : Expanded),
    Unmarked t → Json.Escapeless t → source.Unmarked →
      (expand source t).run.run () = .ok (.ok r, ()) → r.value.Unmarked := by
  intro h
  obtain ⟨r, s, hr, hkeys⟩ := exists_run_joinedName
  have hunmarked := h joinedName _ r (by decide +kernel) (by decide +kernel)
    ValueSource.unmarked_refusing hr
  exact not_unmarked_ofExpression 0 (hunmarked.keys _ (by rw [hkeys]; exact List.mem_cons_self))

/-- A block that begins a concatenation is evaluated with it, and so its placeholder stays. -/
example : ((expand ValueSource.refusing
    "\x7b\"a\": [1] @repeat(2) + @x.y\x7d".toList).run.run ()).toOption.map
      (fun r => r.1.toOption.map (·.value.values)) = some (some ["__REPEAT_ARRAY_0__x.y"]) := by
  decide +kernel

end Template

end JsonTemplate
