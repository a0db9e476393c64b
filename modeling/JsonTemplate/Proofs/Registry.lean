import JsonTemplate.Expansion
import JsonTemplate.Proofs.Marks

/-!
# What reading does to the placeholders

Reading a text keeps the table well-formed (`WellFormed.readTemplate`). Only the extraction of
blocks records blocks. The template of a recorded block has no marks, so that reading it again
leaves the blocks as they are (`readTemplate_blocks_of_markless`), and with them what each string
names.
-/

namespace JsonTemplate

open RepeatBlock

theorem Chain.toPlain_blocks (chain : Chain) (p : Placeholders) :
    (chain.toPlain p).2.blocks = p.blocks := by
  unfold toPlain
  split
  · split <;> rfl
  · rfl

/-- What every chain leaves true of the table is true after all of them. -/
theorem quoteChains_induction {P : Placeholders → Prop}
    (h : ∀ {t rest : List Char} {chain : Chain} (p : Placeholders),
      Chain.split? t = some (chain, rest) → P p → P (chain.toPlain p).2)
    (t : List Char) (p : Placeholders) (hp : P p) : P (quoteChains t p).2 := by
  fun_induction quoteChains t p with
  | case1 => exact hp
  | case2 p c t _ rest p' heq ih =>
    rw [heq] at ih
    exact ih hp
  | case3 p c t chain rest hc replaced p' heq rest' p'' heq' ih =>
    rw [heq'] at ih
    refine ih ?_
    have hq := h p hc hp
    rwa [heq] at hq

theorem quoteChains_blocks (t : List Char) (p : Placeholders) :
    (quoteChains t p).2.blocks = p.blocks :=
  quoteChains_induction (P := fun q => q.blocks = p.blocks)
    (fun {_ _ chain} q _ hq => (chain.toPlain_blocks q).trans hq) t p rfl

namespace Placeholders

theorem reinstateString_blocks (s : String) (p : Placeholders) :
    ((reinstateString s).run p).2.blocks = p.blocks := by
  change (reinstateString s p).2.blocks = p.blocks
  unfold reinstateString
  split <;> rfl

section Traversal

variable {f : String → StateM Placeholders Json} {P : Placeholders → Prop}

mutual

/-- What every string leaves true is true after all of them. -/
theorem traverseStrings_induction (h : ∀ s p, P p → P ((f s).run p).2) : ∀ (v : Json)
    (p : Placeholders), P p → P ((v.traverseStrings f).run p).2
  | .null, _, hp | .bool _, _, hp | .number _, _, hp => hp
  | .string s, p, hp => h s p hp
  | .array items, p, hp => traverseItems_induction h items p hp
  | .object fields, p, hp => traverseFields_induction h fields p hp

theorem traverseItems_induction (h : ∀ s p, P p → P ((f s).run p).2) :
    ∀ (items : List Json) (p : Placeholders), P p → P ((Json.traverseItems f items).run p).2
  | [], _, hp => hp
  | item :: rest, p, hp =>
    traverseItems_induction h rest _ (traverseStrings_induction h item p hp)

theorem traverseFields_induction (h : ∀ s p, P p → P ((f s).run p).2) :
    ∀ (fields : Json.Fields) (p : Placeholders), P p → P ((Json.traverseFields f fields).run p).2
  | [], _, hp => hp
  | (_, value) :: rest, p, hp =>
    traverseFields_induction h rest _ (traverseStrings_induction h value p hp)

end

end Traversal

theorem reinstate_blocks (p : Placeholders) (v : Json) : (p.reinstate v).2.blocks = p.blocks :=
  traverseStrings_induction (P := fun q => q.blocks = p.blocks)
    (fun s q hq => (reinstateString_blocks s q).trans hq) v p rfl

theorem readTemplate_blocks (t : List Char) (p : Placeholders) :
    (readTemplate t p).2.blocks = (extract t p).2.blocks := by
  have hq := quoteChains_blocks (extract t p).1 (extract t p).2
  unfold readTemplate toPlainJson
  dsimp only
  split
  · exact hq
  · exact (reinstate_blocks _ _).trans hq

theorem readTemplate_blocks_of_markless {t : List Char} (h : Markless t) (p : Placeholders) :
    (readTemplate t p).2.blocks = p.blocks := by
  rw [readTemplate_blocks, extract_of_markless h]

theorem namedBlock?_congr {p q : Placeholders} (h : q.blocks = p.blocks) (s : String) :
    q.namedBlock? s = p.namedBlock? s := by
  simp only [namedBlock?, block?, h]

theorem block?_of_namedBlock? {p : Placeholders} {s name : String} {block : RepeatBlock}
    (h : p.namedBlock? s = some (name, block)) : p.block? name = some block := by
  obtain ⟨t, -, h⟩ := Option.bind_eq_some_iff.1 h
  obtain ⟨b, hb, h⟩ := Option.map_eq_some_iff.1 h
  cases h
  exact hb

theorem mem_blocks_of_block? {p : Placeholders} {name : String} {block : RepeatBlock}
    (h : p.block? name = some block) : (name, block) ∈ p.blocks := by
  obtain ⟨before, after, hb, -⟩ := List.lookup_eq_some_iff.1 h
  rw [hb]
  simp

/-! ## Blocks by name -/

/-- Each block of `p` is one of `q`, under the same name. -/
def Within (p q : Placeholders) : Prop :=
  ∀ name block, p.block? name = some block → q.block? name = some block

/-- The blocks have numbers below the next one. -/
def Numbered (p : Placeholders) : Prop :=
  ∀ b ∈ p.blocks, ∃ n < p.nextBlock, b.1 = Placeholder.blockName n

theorem numbered_empty : ({} : Placeholders).Numbered := by
  intro b hb
  cases hb

theorem Within.refl (p : Placeholders) : p.Within p :=
  fun _ _ => id

theorem Within.trans {p q r : Placeholders} (h : p.Within q) (h' : q.Within r) : p.Within r :=
  fun name block hb => h' name block (h name block hb)

theorem Within.recordBlock {p q : Placeholders} (h : p.Within q) (block : RepeatBlock) :
    p.Within (q.recordBlock block).2 := by
  intro name b hb
  have := h name b hb
  simp only [block?] at this
  simp [Placeholders.recordBlock, block?, List.lookup_append, this]

theorem Within.of_blocks {p q r : Placeholders} (h : p.Within q) (hr : r.blocks = q.blocks) :
    p.Within r := by
  intro name b hb
  rw [block?, hr]
  exact h name b hb

/-- Reading loses no block. -/
theorem Within.readTemplate {p q : Placeholders} (h : p.Within q) (t : List Char) :
    p.Within (q.readTemplate t).2 := by
  have hextract : p.Within (extract t q).2 :=
    extractFrom_induction (P := p.Within) (fun _ _ _ hq _ => hq.recordBlock _) [] t q trivial h
  exact hextract.of_blocks (readTemplate_blocks t q)

theorem Numbered.recordBlock {p : Placeholders} (h : p.Numbered) (block : RepeatBlock) :
    (p.recordBlock block).2.Numbered := by
  intro b hb
  rcases List.mem_append.1 hb with hb | hb
  · obtain ⟨n, hn, hname⟩ := h b hb
    exact ⟨n, Nat.lt_succ_of_lt hn, hname⟩
  · rw [List.mem_singleton.1 hb]
    exact ⟨p.nextBlock, Nat.lt_succ_self _, rfl⟩

theorem Numbered.block?_recordBlock {p : Placeholders} (h : p.Numbered) (block : RepeatBlock) :
    (p.recordBlock block).2.block? (Placeholder.blockName p.nextBlock) = some block := by
  have hnone : p.blocks.lookup (Placeholder.blockName p.nextBlock) = none := by
    rw [List.lookup_eq_none_iff]
    intro b hb
    obtain ⟨n, hn, hname⟩ := h b hb
    rw [hname, bne_iff_ne]
    intro heq
    have := Placeholder.blockName_injective heq
    omega
  simp [Placeholders.recordBlock, block?, List.lookup_append, hnone]

theorem namedBlock?_eq_none {p : Placeholders} {s : String}
    (h : Placeholder.blockName? s.toList = none) : p.namedBlock? s = none := by
  rw [namedBlock?, h, Option.bind_none]

theorem namedBlock?_ofBlock {p : Placeholders} {name : String} {block : RepeatBlock}
    (h : p.block? name = some block) :
    p.namedBlock? (Placeholder.ofBlock name) = some (name, block) := by
  simp [namedBlock?, Placeholder.blockName?_ofBlock, h]

/-! ## Well-formed tables -/

/-- The numbers that have been given out are below the next ones, no expression looks like a block's
placeholder, and no mark is left in a block. -/
structure WellFormed (p : Placeholders) : Prop where
  placeholder : ∀ e ∈ p.expressions, ∃ n < p.nextExpression, e.1 = Placeholder.ofExpression n
  expression : ∀ e ∈ p.expressions, Placeholder.blockName? e.2.toList = none
  name : ∀ b ∈ p.blocks, ∃ n < p.nextBlock, b.1 = Placeholder.blockName n
  template : ∀ b ∈ p.blocks, Markless b.2.template.toList

/-- A well-formed table names its blocks by their placeholders only. -/
theorem WellFormed.namedBlock?_eq_none {p : Placeholders} (hp : p.WellFormed) {s : String}
    (h : ∀ n, s ≠ Placeholder.ofBlock (Placeholder.blockName n)) : p.namedBlock? s = none := by
  cases hn : p.namedBlock? s with
  | none => rfl
  | some r =>
    obtain ⟨t, ht, hr⟩ := Option.bind_eq_some_iff.1 hn
    obtain ⟨b, hb, rfl⟩ := Option.map_eq_some_iff.1 hr
    obtain ⟨n, -, hname⟩ := hp.name _ (mem_blocks_of_block? hb)
    dsimp only at hname
    rw [Placeholder.eq_ofBlock_of_blockName? ht, hname] at h
    exact absurd rfl (h n)

theorem wellFormed_empty : ({} : Placeholders).WellFormed where
  placeholder _ h := by cases h
  expression _ h := by cases h
  name _ h := by cases h
  template _ h := by cases h

theorem WellFormed.markless_of_namedBlock? {p : Placeholders} (hp : p.WellFormed)
    {s name : String} {b : RepeatBlock} (h : p.namedBlock? s = some (name, b)) :
    Markless b.template.toList :=
  hp.template _ (mem_blocks_of_block? (block?_of_namedBlock? h))

theorem WellFormed.recordBlock {p : Placeholders} (hp : p.WellFormed) {template : List Char}
    (h : Markless template) (count : Nat) :
    (p.recordBlock ⟨String.ofList template, count⟩).2.WellFormed where
  placeholder := hp.placeholder
  expression := hp.expression
  name b hb := by
    rcases List.mem_append.1 hb with hb | hb
    · obtain ⟨n, hn, hname⟩ := hp.name b hb
      exact ⟨n, Nat.lt_succ_of_lt hn, hname⟩
    · rw [List.mem_singleton.1 hb]
      exact ⟨p.nextBlock, Nat.lt_succ_self _, rfl⟩
  template b hb := by
    rcases List.mem_append.1 hb with hb | hb
    · exact hp.template b hb
    · rw [List.mem_singleton.1 hb, String.toList_ofList]
      exact h

theorem WellFormed.recordExpression {p : Placeholders} (hp : p.WellFormed) {t : List Char}
    (h : Placeholder.blockName? (Text.trim t) = none) :
    (p.recordExpression t).2.WellFormed where
  placeholder e he := by
    rcases List.mem_append.1 he with he | he
    · obtain ⟨n, hn, hname⟩ := hp.placeholder e he
      exact ⟨n, Nat.lt_succ_of_lt hn, hname⟩
    · rw [List.mem_singleton.1 he]
      exact ⟨p.nextExpression, Nat.lt_succ_self _, rfl⟩
  expression e he := by
    rcases List.mem_append.1 he with he | he
    · exact hp.expression e he
    · rw [List.mem_singleton.1 he, String.toList_ofList]
      exact h
  name := hp.name
  template := hp.template

theorem WellFormed.reinstateString {p : Placeholders} (hp : p.WellFormed) (s : String) :
    ((reinstateString s).run p).2.WellFormed := by
  change (Placeholders.reinstateString s p).2.WellFormed
  unfold Placeholders.reinstateString
  split
  · exact ⟨fun e he => hp.placeholder e (List.mem_filter.1 he).1,
      fun e he => hp.expression e (List.mem_filter.1 he).1, hp.name, hp.template⟩
  · exact hp

theorem WellFormed.reinstate {p : Placeholders} (hp : p.WellFormed) (v : Json) :
    (p.reinstate v).2.WellFormed :=
  traverseStrings_induction (fun s _ hq => hq.reinstateString s) v p hp

theorem WellFormed.extract {p : Placeholders} (hp : p.WellFormed) (t : List Char) :
    (RepeatBlock.extract t p).2.WellFormed :=
  extractFrom_induction (fun _ _ count hq h => hq.recordBlock h count) [] t p trivial hp

end Placeholders

theorem Operand.text_head {t rest : List Char} {o : Operand} (h : split? t = some (o, rest)) :
    ∃ c u, o.text = c :: u ∧ (c = '"' ∨ c = '@') := by
  unfold split? at h
  split at h
  · cases h
    exact ⟨_, _, rfl, .inl rfl⟩
  · obtain ⟨⟨k, rest'⟩, -, heq⟩ := Option.map_eq_some_iff.1 h
    cases heq
    exact ⟨_, _, rfl, .inr rfl⟩

theorem Text.trim_cons {c : Char} (hc : isBlank c = false) (t : List Char) :
    ∃ u, trim (c :: t) = c :: u := by
  have hstart : trimStart (c :: t) = c :: t := by
    rw [trimStart, List.dropWhile_cons_of_neg (by simp [hc])]
  rw [trim, hstart, trimEnd, List.reverse_cons, List.dropWhile_append]
  split
  · rw [List.dropWhile_cons_of_neg (by simp [hc])]
    exact ⟨[], rfl⟩
  · rw [List.reverse_append]
    exact ⟨_, rfl⟩

/-- An expression does not look like a block's placeholder. -/
theorem Chain.blockName?_trim {t rest : List Char} {chain : Chain}
    (h : split? t = some (chain, rest)) : Placeholder.blockName? (Text.trim chain.text) = none := by
  obtain ⟨⟨o, rest'⟩, ho, heq⟩ := Option.map_eq_some_iff.1 h
  cases heq
  obtain ⟨c, u, hu, hc⟩ := Operand.text_head ho
  have hblank : Text.isBlank c = false := by
    rcases hc with rfl | rfl <;> rfl
  obtain ⟨v, hv⟩ := Text.trim_cons hblank (u ++ (splitJoined rest').1.text)
  rw [hu, List.cons_append, hv, Placeholder.blockName?, Placeholder.toList_blockStart]
  rcases hc with rfl | rfl <;> simp [Text.afterStart?, List.isPrefixOf]

theorem Placeholders.WellFormed.toPlain {p : Placeholders} (hp : p.WellFormed)
    {t rest : List Char} {chain : Chain} (h : Chain.split? t = some (chain, rest)) :
    (chain.toPlain p).2.WellFormed := by
  unfold Chain.toPlain
  split
  · split
    · exact hp.recordExpression (Chain.blockName?_trim h)
    · exact hp
  · exact hp

theorem Placeholders.WellFormed.quoteChains {p : Placeholders} (hp : p.WellFormed)
    (t : List Char) : (quoteChains t p).2.WellFormed :=
  quoteChains_induction (fun _ h hq => hq.toPlain h) t p hp

theorem Placeholders.WellFormed.readTemplate {p : Placeholders} (hp : p.WellFormed)
    (t : List Char) : (p.readTemplate t).2.WellFormed := by
  have hq := (hp.extract t).quoteChains (RepeatBlock.extract t p).1
  unfold Placeholders.readTemplate toPlainJson
  dsimp only
  split
  · exact hq
  · exact hq.reinstate _

end JsonTemplate
