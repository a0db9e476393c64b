import JsonTemplate.Proofs.Placed
import JsonTemplate.Proofs.References

/-!
# Blocks in their order

The blocks of an unmarked text refer to blocks that were taken out before them only: their
references go from numbers to lower ones (`Placeholders.Ordered.lt_of_refers`), and never round in a
circle (`Placeholders.Ordered.not_circular`).
-/

namespace JsonTemplate

open Relation RepeatBlock

namespace Placeholders

theorem firstItem?_eq_some {p : Placeholders} {t : List Char} {i : Json}
    (h : p.firstItem? t = some i) :
    ∃ v, (p.readTemplate t).1 = .ok v ∧ v.firstItem? = some i := by
  unfold firstItem? at h
  split at h
  · rename_i v hv
    exact ⟨v, hv, h⟩
  · cases h

/-- What is read is a JSON text with its expressions put back. -/
theorem exists_read_of_readTemplate {p : Placeholders} {t : List Char} {v : Json}
    (h : (p.readTemplate t).1 = .ok v) :
    ∃ w, Json.read (quoteChains (extract t p).1 (extract t p).2).1 = .ok w
      ∧ v = ((quoteChains (extract t p).1 (extract t p).2).2.reinstate w).1 := by
  unfold readTemplate toPlainJson at h
  dsimp only at h
  split at h
  · cases h
  · rename_i w hw
    cases h
    exact ⟨w, hw, rfl⟩

/-- The strings of an array's first item are strings of the array. -/
theorem subset_of_firstItem? {v i : Json} (h : v.firstItem? = some i) :
    i.values ⊆ v.values ∧ i.keys ⊆ v.keys := by
  match v, h with
  | .array (item :: rest), h =>
    cases h
    exact ⟨List.subset_append_left _ _, List.subset_append_left _ _⟩

variable {p q : Placeholders}

/-- A block refers to blocks of lower numbers. -/
theorem Ordered.lt_of_refers (hq : q.Ordered) (hblocks : p.blocks = q.blocks)
    (hescape : ∀ b ∈ p.blocks, Json.Escapeless b.2.template.toList) {a b : String}
    (h : p.Refers a b) :
    ∃ m n, a = Placeholder.blockName m ∧ b = Placeholder.blockName n ∧ n < m := by
  obtain ⟨block, hblock, -, r, hr, href⟩ := h
  have hmem := mem_blocks_of_block? hblock
  obtain ⟨m, -, hname, htidy⟩ := hq _ (hblocks ▸ hmem)
  have hmarkless : Markless block.template.toList :=
    hr.wellFormed.template (a, block) (hr.blocks ▸ hmem)
  obtain ⟨i, hi, hnamed⟩ := mem_references.1 href
  obtain ⟨s, hs, block', hb⟩ := mem_namedIn.1 hnamed
  obtain ⟨v, hv, hvi⟩ := firstItem?_eq_some hi
  obtain ⟨w, hw, rfl⟩ := exists_read_of_readTemplate hv
  have hs := (subset_of_firstItem? hvi).1 hs
  rw [extract_of_markless hmarkless] at hw hs
  obtain ⟨n, hn, rfl⟩ := exists_number_of_read hr.wellFormed hr.wellFormed htidy
    (hescape _ hmem) hw hs hb
  exact ⟨m, n, hname, rfl, hn⟩

theorem Ordered.not_circular (hq : q.Ordered) (hblocks : p.blocks = q.blocks)
    (hescape : ∀ b ∈ p.blocks, Json.Escapeless b.2.template.toList) (v : Json) :
    ¬ p.Circular p.Refers v := by
  rintro ⟨-, -, b, -, hcircle⟩
  have hlt : ∀ {a c}, TransGen p.Refers a c →
      ∃ m n, a = Placeholder.blockName m ∧ c = Placeholder.blockName n ∧ n < m := by
    intro a c h
    induction h with
    | single h => exact hq.lt_of_refers hblocks hescape h
    | tail _ h ih =>
      obtain ⟨m, n, ha, hn, hlt⟩ := ih
      obtain ⟨m', n', hm', hn', hlt'⟩ := hq.lt_of_refers hblocks hescape h
      obtain rfl := Placeholder.blockName_injective (hn.symm.trans hm')
      exact ⟨m, n', ha, hn', Nat.lt_trans hlt' hlt⟩
  obtain ⟨m, n, hm, hn, hlt⟩ := hlt hcircle
  obtain rfl := Placeholder.blockName_injective (hm.symm.trans hn)
  exact Nat.lt_irrefl m hlt

end Placeholders

end JsonTemplate
