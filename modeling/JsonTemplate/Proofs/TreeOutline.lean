import JsonTemplate.Proofs.Nesting
import JsonTemplate.Proofs.TreeReading

/-!
# The outline of a tree

Walking the value of a tree makes the tree's own outline (`Tree.makes_outline`), with the tables of
any later reading: a block's text is read anew for each copy, and always as the same elements.
-/

namespace JsonTemplate

open Text Json RepeatBlock

mutual

/-- The tree with each repeated array unrolled. -/
def Tree.outline : Tree → Outline
  | .scalar .null => .null
  | .scalar (.bool b) => .bool b
  | .scalar (.number n) => .number n.value
  | .quote q => .text q.value
  | .mention m => .text (String.ofList m.text)
  | .concatenation c => .text (String.ofList c.text)
  | .array _ es => .array es.outline
  | .object _ ms => .object ms.outline
  | .repeated _ .nil _ _ => .array []
  | .repeated _ (.cons _ t _ _) _ mark => .array (List.replicate mark.count t.outline)

def Elements.outline : Elements → List Outline
  | .nil => []
  | .cons _ t _ rest => t.outline :: rest.outline

def Members.outline : Members → List (String × Outline)
  | .nil => []
  | .cons label t _ rest => (label.key.value, t.outline) :: rest.outline

end

/-! ## Tables -/

mutual

/-- Flattening does nothing to a table but record blocks. -/
theorem Tree.flatten_induction {P : Placeholders → Prop}
    (hP : ∀ p b, P p → P (p.recordBlock b).2) :
    ∀ (t : Tree) (p : Placeholders), P p → P (t.flatten p).2
  | .scalar _, _, hp | .quote _, _, hp | .mention _, _, hp | .concatenation _, _, hp => hp
  | .array _ es, p, hp => es.flatten_induction hP p hp
  | .object _ ms, p, hp => ms.flatten_induction hP p hp
  | .repeated _ es _ _, p, hp => hP _ _ (es.flatten_induction hP p hp)

theorem Elements.flatten_induction {P : Placeholders → Prop}
    (hP : ∀ p b, P p → P (p.recordBlock b).2) :
    ∀ (es : Elements) (p : Placeholders), P p → P (es.flatten p).2
  | .nil, _, hp => hp
  | .cons _ t _ rest, p, hp => rest.flatten_induction hP _ (t.flatten_induction hP p hp)

theorem Members.flatten_induction {P : Placeholders → Prop}
    (hP : ∀ p b, P p → P (p.recordBlock b).2) :
    ∀ (ms : Members) (p : Placeholders), P p → P (ms.flatten p).2
  | .nil, _, hp => hp
  | .cons _ t _ rest, p, hp => rest.flatten_induction hP _ (t.flatten_induction hP p hp)

end

open Placeholders

theorem Elements.within_flatten (es : Elements) (q : Placeholders) : q.Within (es.flatten q).2 :=
  es.flatten_induction (fun _ b hq => hq.recordBlock b) q (.refl q)

theorem Members.within_flatten (ms : Members) (q : Placeholders) : q.Within (ms.flatten q).2 :=
  ms.flatten_induction (fun _ b hq => hq.recordBlock b) q (.refl q)

theorem Tree.numbered_flatten (t : Tree) {q : Placeholders} (hq : q.Numbered) :
    (t.flatten q).2.Numbered :=
  t.flatten_induction (fun _ b hq => hq.recordBlock b) q hq

theorem Elements.numbered_flatten (es : Elements) {q : Placeholders} (hq : q.Numbered) :
    (es.flatten q).2.Numbered :=
  es.flatten_induction (fun _ b hq => hq.recordBlock b) q hq

/-! ## Making an outline -/

namespace Outlining

variable {α β : Type}

/-- With every table that has the blocks of `p`, `o` makes `a`. -/
def Makes (p : Placeholders) (o : Outlining α) (a : α) : Prop :=
  ∀ q, p.Alike q → ∃ q', p.Alike q' ∧ o.run q = some (a, q')

variable {p : Placeholders} {f : String → Outlining Outline}

theorem makes_pure (a : α) : Makes p (pure a) a :=
  fun q hq => ⟨q, hq, rfl⟩

theorem Makes.bind {o : Outlining α} {k : α → Outlining β} {a : α} {b : β} (h : Makes p o a)
    (hk : Makes p (k a) b) : Makes p (o >>= k) b := by
  intro q hq
  obtain ⟨q₁, hq₁, ho⟩ := h q hq
  obtain ⟨q₂, hq₂, hk⟩ := hk q₁ hq₁
  exact ⟨q₂, hq₂, by rw [run_bind, ho]; exact hk⟩

theorem makes_readTemplate {t : List Char} (ht : Markless t) {v : Json}
    (h : ∀ q, p.Alike q → (q.readTemplate t).1 = .ok v) : Makes p (readTemplate t) (.ok v) :=
  fun q hq => ⟨(q.readTemplate t).2, hq.readTemplate ht, by rw [← h q hq]; rfl⟩

theorem makes_item {t : List Char} (ht : Markless t) {v i : Json}
    (h : ∀ q, p.Alike q → (q.readTemplate t).1 = .ok v) (hi : v.firstItem? = some i)
    {o : Outline} (ho : Makes p (value f i) o) : Makes p (item f t) (.ok (some o)) := by
  refine (makes_readTemplate ht h).bind ?_
  simp only [hi]
  exact ho.bind (makes_pure _)

theorem makes_item_none {t : List Char} (ht : Markless t) {v : Json}
    (h : ∀ q, p.Alike q → (q.readTemplate t).1 = .ok v) (hi : v.firstItem? = none) :
    Makes p (item f t) (.ok none) := by
  refine (makes_readTemplate ht h).bind ?_
  simp only [hi]
  exact makes_pure _

theorem makes_copies {make : Outlining (Except TemplateError (Option Outline))} {o : Outline}
    (h : Makes p make (.ok (some o))) : ∀ n, Makes p (copies make n) (List.replicate n o, none)
  | 0 => makes_pure _
  | n + 1 => by
    refine h.bind ?_
    exact (makes_copies h n).bind (makes_pure _)

theorem makes_copies_nil {make : Outlining (Except TemplateError (Option Outline))}
    (h : Makes p make (.ok none)) : ∀ n, Makes p (copies make n) ([], none)
  | 0 => makes_pure _
  | _ + 1 => h.bind (makes_pure _)

theorem makes_string_of_unnamed {s : String} (h : Placeholder.blockName? s.toList = none)
    (depth : Nat) : Makes p (string depth s) (.text s) :=
  fun q hq => ⟨q, hq, run_string_of_unnamed (namedBlock?_eq_none h) depth⟩

theorem makes_string_of_named {name : String} {b : RepeatBlock} (h : p.block? name = some b)
    {depth : Nat} {o : Outline} (ho : Makes p (block (string depth) name b) o) :
    Makes p (string (depth + 1) (Placeholder.ofBlock name)) o := by
  intro q hq
  have hnamed := (namedBlock?_congr hq.blocks _).trans (namedBlock?_ofBlock h)
  rw [run_string_of_named hnamed]
  exact ho q hq

end Outlining

open Outlining

/-! ## Leaves -/

theorem Quote.blockName?_value (q : Quote) : Placeholder.blockName? q.value.toList = none := by
  cases h : Placeholder.blockName? q.value.toList with
  | none => rfl
  | some name =>
    obtain ⟨t, ht, hname⟩ := Option.bind_eq_some_iff.1 h
    obtain ⟨u, hu, rfl⟩ := Option.map_eq_some_iff.1 hname
    have hstart := eq_of_afterStart? ht
    have hend := congrArg List.reverse (eq_of_afterStart? hu)
    rw [List.reverse_reverse, List.reverse_append, List.reverse_reverse] at hend
    refine absurd ?_ (q.notBlock u.reverse)
    rw [hstart, hend, List.append_assoc]

theorem Placeholder.blockName?_cons {c : Char} (hc : c ≠ '_') (t : List Char) :
    blockName? (c :: t) = none := by
  simp [blockName?, toList_blockStart, afterStart?, List.isPrefixOf, Ne.symm hc]

theorem Mention.blockName?_text (m : Mention) : Placeholder.blockName? m.text = none :=
  Placeholder.blockName?_cons (by decide) _

theorem Concatenation.blockName?_text (c : Concatenation) :
    Placeholder.blockName? c.text = none := by
  obtain ⟨d, t, ht, hd⟩ := c.first.exists_text_eq_cons
  rw [text, ht, List.cons_append]
  rcases hd with rfl | rfl <;> exact Placeholder.blockName?_cons (by decide) _

/-! ## Trees -/

section Repeated

variable {p q : Placeholders} (hp : p.WellFormed) (hq : q.Numbered) {gap space : Blanks}
  {es : Elements} {mark : Mark} (hwithin : ((Tree.repeated gap es space mark).flatten q).2.Within p)
include hp hq hwithin

/-- The table has the block of a repeated array. -/
theorem Tree.block?_repeated :
    p.block? (Placeholder.blockName (es.flatten q).2.nextBlock)
        = some ⟨String.ofList ((Tree.array gap es).flatten q).1, mark.count⟩
      ∧ Markless ((Tree.array gap es).flatten q).1 := by
  have hblock := hwithin _ _ ((es.numbered_flatten hq).block?_recordBlock
    ⟨String.ofList ((Tree.array gap es).flatten q).1, mark.count⟩)
  have hmarkless := hp.template _ (mem_blocks_of_block? hblock)
  rw [String.toList_ofList] at hmarkless
  exact ⟨hblock, hmarkless⟩

theorem makes_repeated {depth : Nat} {os : List Outline}
    (h : Makes p (copies (item (string depth) ((Tree.array gap es).flatten q).1) mark.count)
      (os, none)) :
    Makes p (value (string (depth + 1)) ((Tree.repeated gap es space mark).value q))
      (.array os) := by
  rw [Tree.value, Literal.ofBlock, value]
  refine makes_string_of_named (Tree.block?_repeated hp hq hwithin).1 ?_
  rw [Outlining.block, String.toList_ofList]
  exact h.bind (makes_pure _)

end Repeated

mutual

/-- Walking the value of a tree makes its outline, if its blocks are in the table. -/
theorem Tree.makes_outline {p : Placeholders} (hp : p.WellFormed) :
    ∀ (t : Tree) {q : Placeholders} {depth : Nat}, q.Numbered → (t.flatten q).2.Within p →
      t.nesting ≤ depth → t.nesting ≤ depthLimit → t.DistinctKeys →
        Makes p (value (string depth) (t.value q)) t.outline
  | .scalar .null, _, _, _, _, _, _, _ => makes_pure _
  | .scalar (.bool b), _, _, _, _, _, _, _ => makes_pure _
  | .scalar (.number n), _, _, _, _, _, _, _ => makes_pure _
  | .quote k, _, depth, _, _, _, _, _ => makes_string_of_unnamed k.blockName?_value depth
  | .mention m, _, depth, _, _, _, _, _ =>
    makes_string_of_unnamed (by rw [String.toList_ofList]; exact m.blockName?_text) depth
  | .concatenation c, _, depth, _, _, _, _, _ =>
    makes_string_of_unnamed (by rw [String.toList_ofList]; exact c.blockName?_text) depth
  | .array _ es, _, _, hq, hwithin, hdepth, hlimit, hkeys =>
    (es.makes_outline hp hq hwithin (Nat.le_of_succ_le hdepth) (Nat.le_of_succ_le hlimit)
      hkeys).bind (makes_pure _)
  | .object _ ms, _, _, hq, hwithin, hdepth, hlimit, hkeys =>
    (ms.makes_outline hp hq hwithin (Nat.le_of_succ_le hdepth) (Nat.le_of_succ_le hlimit)
      hkeys.2).bind (makes_pure _)
  | .repeated gap .nil _ mark, q, depth + 1, hq, hwithin, _, hlimit, hkeys => by
    have hmarkless := (Tree.block?_repeated hp hq hwithin).2
    have hread : ∀ q', p.Alike q' → (q'.readTemplate ((Tree.array gap .nil).flatten q).1).1
        = .ok (.array []) := fun q' hq' =>
      Tree.readTemplate_flatten (t := .array gap .nil) hq'.wellFormed hlimit hkeys hmarkless
    exact makes_repeated hp hq hwithin
      (makes_copies_nil (makes_item_none hmarkless hread rfl) mark.count)
  | .repeated gap (.cons before t after es) _ mark, q, depth + 1, hq, hwithin, hdepth, hlimit,
      hkeys => by
    have hmarkless := (Tree.block?_repeated hp hq hwithin).2
    have hread : ∀ q', p.Alike q' →
        (q'.readTemplate ((Tree.array gap (.cons before t after es)).flatten q).1).1
          = .ok (.array (t.value q :: es.value (t.flatten q).2)) := fun q' hq' =>
      Tree.readTemplate_flatten (t := .array gap (.cons before t after es)) hq'.wellFormed hlimit
        hkeys hmarkless
    have hinner : ((Elements.cons before t after es).flatten q).2.Within p :=
      ((Within.refl _).recordBlock _).trans hwithin
    have hdeep : t.nesting ≤ depth ∧ t.nesting ≤ depthLimit := by
      rw [Tree.nesting, Elements.nesting] at hdepth hlimit
      omega
    have ht := t.makes_outline hp hq ((es.within_flatten _).trans hinner) hdeep.1 hdeep.2 hkeys.1
    exact makes_repeated hp hq hwithin
      (makes_copies (makes_item hmarkless hread rfl ht) mark.count)

theorem Elements.makes_outline {p : Placeholders} (hp : p.WellFormed) :
    ∀ (es : Elements) {q : Placeholders} {depth : Nat}, q.Numbered → (es.flatten q).2.Within p →
      es.nesting ≤ depth → es.nesting ≤ depthLimit → es.DistinctKeys →
        Makes p (items (string depth) (es.value q)) es.outline
  | .nil, _, _, _, _, _, _, _ => makes_pure _
  | .cons _ t _ es, q, _, hq, hwithin, hdepth, hlimit, hkeys => by
    rw [Elements.nesting, Nat.max_le] at hdepth hlimit
    have ht := (es.within_flatten _).trans hwithin
    exact (t.makes_outline hp hq ht hdepth.1 hlimit.1 hkeys.1).bind
      ((es.makes_outline hp (t.numbered_flatten hq) hwithin hdepth.2 hlimit.2 hkeys.2).bind
        (makes_pure _))

theorem Members.makes_outline {p : Placeholders} (hp : p.WellFormed) :
    ∀ (ms : Members) {q : Placeholders} {depth : Nat}, q.Numbered → (ms.flatten q).2.Within p →
      ms.nesting ≤ depth → ms.nesting ≤ depthLimit → ms.DistinctKeys →
        Makes p (fields (string depth) (ms.value q)) ms.outline
  | .nil, _, _, _, _, _, _, _ => makes_pure _
  | .cons _ t _ ms, q, _, hq, hwithin, hdepth, hlimit, hkeys => by
    rw [Members.nesting, Nat.max_le] at hdepth hlimit
    have ht := (ms.within_flatten _).trans hwithin
    exact (t.makes_outline hp hq ht hdepth.1 hlimit.1 hkeys.1).bind
      ((ms.makes_outline hp (t.numbered_flatten hq) hwithin hdepth.2 hlimit.2 hkeys.2).bind
        (makes_pure _))

end

end JsonTemplate
