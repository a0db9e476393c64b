import Mathlib.Data.List.Perm.Subperm
import Mathlib.Logic.Relation
import JsonTemplate.Proofs.Nesting

/-!
# References between blocks

A block refers to the blocks that the first item of its array names, if any copies of it are made
at all. The expressions of a text are numbered anew each time it is read, so that a reference may
depend on the numbers; a lasting one does not. Where no circle of references is met, blocks lie
within one another no deeper than there are blocks (`succeeds_value_of_not_circular`); a circle of
lasting references has no end (`fails_value_of_circle`).
-/

namespace JsonTemplate

open Relation

namespace Placeholders

/-- The blocks that the string values of a tree name. -/
def namedIn (p : Placeholders) (v : Json) : List String :=
  v.values.filterMap fun s => (p.namedBlock? s).map Prod.fst

/-- The blocks that are named in the first item of an array, read from its text. -/
def references (p : Placeholders) (template : List Char) : List String :=
  ((p.firstItem? template).map p.namedIn).getD []

/-- One block refers to another, at least with some numbering of the expressions. -/
def Refers (p : Placeholders) (a b : String) : Prop :=
  ∃ block, p.block? a = some block ∧ block.count ≠ 0 ∧
    ∃ q, p.Alike q ∧ b ∈ q.references block.template.toList

/-- One block refers to another, however the expressions are numbered. -/
def RefersAlways (p : Placeholders) (a b : String) : Prop :=
  ∃ block, p.block? a = some block ∧ block.count ≠ 0 ∧
    ∀ q, p.Alike q → b ∈ q.references block.template.toList

/-- From the blocks that a value names, references lead to a block that leads back to itself. -/
def Circular (p : Placeholders) (refers : String → String → Prop) (v : Json) : Prop :=
  ∃ a ∈ p.namedIn v, ∃ b, ReflTransGen refers a b ∧ TransGen refers b b

theorem mem_namedIn {p : Placeholders} {v : Json} {name : String} :
    name ∈ p.namedIn v ↔ ∃ s ∈ v.values, ∃ block, p.namedBlock? s = some (name, block) := by
  simp only [namedIn, List.mem_filterMap, Option.map_eq_some_iff]
  constructor
  · rintro ⟨s, hs, ⟨_, block⟩, hb, rfl⟩
    exact ⟨s, hs, block, hb⟩
  · rintro ⟨s, hs, block, hb⟩
    exact ⟨s, hs, (name, block), hb, rfl⟩

theorem mem_references {p : Placeholders} {template : List Char} {name : String} :
    name ∈ p.references template ↔ ∃ i, p.firstItem? template = some i ∧ name ∈ p.namedIn i := by
  unfold references
  cases p.firstItem? template <;> simp

theorem namedIn_congr {p q : Placeholders} (h : q.blocks = p.blocks) (v : Json) :
    q.namedIn v = p.namedIn v := by
  simp only [namedIn, namedBlock?_congr h]

end Placeholders

namespace Outlining

variable {p : Placeholders}

/-- The blocks around a string that names `name`: they are all different, and lead to it. -/
structure Around (p : Placeholders) (path : List String) (name : String) : Prop where
  nodup : path.Nodup
  subset : path ⊆ p.blocks.map Prod.fst
  leads : ∀ a ∈ path, TransGen p.Refers a name
  endless : ∀ b, ReflTransGen p.Refers name b → ¬ TransGen p.Refers b b

/-- The block itself is one more, not among those around it. -/
theorem Around.cons {path : List String} {name : String} (h : Around p path name)
    {block : RepeatBlock} (hb : p.block? name = some block) :
    (name :: path).Nodup ∧ name :: path ⊆ p.blocks.map Prod.fst := by
  have hfresh : name ∉ path := fun hm => h.endless name .refl (h.leads name hm)
  have hmem : name ∈ p.blocks.map Prod.fst :=
    List.mem_map_of_mem (Placeholders.mem_blocks_of_block? hb)
  exact ⟨List.nodup_cons.2 ⟨hfresh, h.nodup⟩, List.cons_subset.2 ⟨hmem, h.subset⟩⟩

theorem Around.length_lt {path : List String} {name : String} (h : Around p path name)
    {block : RepeatBlock} (hb : p.block? name = some block) : path.length < p.blocks.length := by
  obtain ⟨hn, hs⟩ := h.cons hb
  have := (List.subperm_of_subset hn hs).length_le
  rwa [List.length_cons, List.length_map] at this

theorem Around.step {path : List String} {name next : String} (h : Around p path name)
    {block : RepeatBlock} (hb : p.block? name = some block) (hr : p.Refers name next) :
    Around p (name :: path) next where
  nodup := (h.cons hb).1
  subset := (h.cons hb).2
  leads a ha := by
    rcases List.mem_cons.1 ha with rfl | ha
    · exact .single hr
    · exact (h.leads a ha).tail hr
  endless b hnext := h.endless b (.head hr hnext)

/-- Blocks nest no deeper than there are blocks where no circle is met. -/
theorem succeeds_string : ∀ (depth : Nat) (path : List String),
    p.blocks.length ≤ path.length + depth → ∀ s : String,
      (∀ name block, p.namedBlock? s = some (name, block) → Around p path name) →
      Succeeds p (string depth s)
  | 0, path, hlen, s, h => by
    intro q hq
    cases hs : q.namedBlock? s with
    | none =>
      rw [run_string_of_unnamed hs]
      rfl
    | some r =>
      obtain ⟨name, block⟩ := r
      rw [Placeholders.namedBlock?_congr hq.blocks] at hs
      have := (h name block hs).length_lt (Placeholders.block?_of_namedBlock? hs)
      omega
  | depth + 1, path, hlen, s, h => by
    intro q hq
    cases hs : q.namedBlock? s with
    | none =>
      rw [run_string_of_unnamed hs]
      rfl
    | some r =>
      obtain ⟨name, block⟩ := r
      have hm := hq.wellFormed.markless_of_namedBlock? hs
      rw [run_string_of_named hs]
      rw [Placeholders.namedBlock?_congr hq.blocks] at hs
      have hb := Placeholders.block?_of_namedBlock? hs
      have hk := keeps_string (p := p) depth
      refine succeeds_block (keeps_item hm hk) (fun hcount => ?_) name q hq
      refine succeeds_item hm hk fun q' hq' i hi s' hs' => ?_
      have hlen' : p.blocks.length ≤ (name :: path).length + depth := by
        rw [List.length_cons]
        omega
      refine succeeds_string depth (name :: path) hlen' s' fun next block' hnext => ?_
      have href : p.Refers name next := by
        refine ⟨block, hb, hcount, q', hq', Placeholders.mem_references.2 ⟨i, hi, ?_⟩⟩
        rw [Placeholders.namedIn_congr hq'.blocks]
        exact Placeholders.mem_namedIn.2 ⟨s', hs', block', hnext⟩
      exact (h name block hs).step hb href

theorem succeeds_value_of_not_circular {v : Json} (h : ¬ p.Circular p.Refers v)
    {depth : Nat} (hd : p.blocks.length ≤ depth) :
    Succeeds p (value (string depth) v) := by
  refine succeeds_value (keeps_string depth) v fun s hs => ?_
  refine succeeds_string depth [] (by simpa using hd) s fun name block hn => ?_
  refine ⟨List.nodup_nil, List.nil_subset _, by simp, fun b hreach hcircle => h ?_⟩
  exact ⟨name, Placeholders.mem_namedIn.2 ⟨s, hs, block, hn⟩, b, hreach, hcircle⟩

/-- A block with endlessly many lasting references before it has no outline. -/
theorem fails_string {E : String → Prop}
    (he : ∀ a, E a → ∃ b, E b ∧ p.RefersAlways a b) : ∀ (depth : Nat) (s : String),
      (∃ name block, p.namedBlock? s = some (name, block) ∧ E name) →
      Fails p (string depth s)
  | 0, s, ⟨name, block, hs, _⟩ => by
    intro q hq
    rw [← Placeholders.namedBlock?_congr hq.blocks] at hs
    exact run_string_zero_of_named hs
  | depth + 1, s, ⟨name, block, hs, hname⟩ => by
    intro q hq
    obtain ⟨next, hnext, block', hb', hcount, href⟩ := he name hname
    have hb := Placeholders.block?_of_namedBlock? hs
    rw [hb] at hb'
    cases hb'
    rw [← Placeholders.namedBlock?_congr hq.blocks] at hs
    have hm := hq.wellFormed.markless_of_namedBlock? hs
    rw [run_string_of_named hs]
    refine fails_block hcount (fails_item hm (keeps_string depth) fun q' hq' => ?_) name q hq
    obtain ⟨i, hi, hn⟩ := Placeholders.mem_references.1 (href q' hq')
    rw [Placeholders.namedIn_congr hq'.blocks] at hn
    obtain ⟨s', hs', block'', hn⟩ := Placeholders.mem_namedIn.1 hn
    exact ⟨i, hi, s', hs', fails_string he depth s' ⟨next, block'', hn, hnext⟩⟩

theorem fails_value_of_circle {v : Json} (h : p.Circular p.RefersAlways v)
    (depth : Nat) : Fails p (value (string depth) v) := by
  obtain ⟨a, ha, b, hreach, hcircle⟩ := h
  obtain ⟨s, hs, block, hn⟩ := Placeholders.mem_namedIn.1 ha
  refine fails_value (keeps_string depth) ?_ v hs
  refine fails_string (E := fun c => ReflTransGen p.RefersAlways c b) ?_ depth s
    ⟨a, block, hn, hreach⟩
  intro c hc
  rcases hc.cases_head with rfl | ⟨d, hcd, hd⟩
  · obtain ⟨d, hcd, hd⟩ := TransGen.head'_iff.1 hcircle
    exact ⟨d, hd, hcd⟩
  · exact ⟨d, hd, hcd⟩

end Outlining

end JsonTemplate
