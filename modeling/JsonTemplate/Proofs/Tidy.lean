import JsonTemplate.Proofs.Marks
import JsonTemplate.Proofs.Reading
import JsonTemplate.Proofs.Separators
import JsonTemplate.Proofs.Unmarked

/-!
# Texts between quotes

While blocks are taken out of an unmarked text, each of their placeholders stands alone between two
quotes, and the text between any other two stays unmarked (`tidy_extractFrom`): where a text is cut,
there is a character that is in no placeholder. The placeholders in a block are those of blocks that
were taken out before it, and so have lower numbers.
-/

namespace JsonTemplate

open Text

namespace Placeholder

/-- The text is the placeholder of a block whose number is below `k`. -/
def IsBlockBelow (k : Nat) (t : List Char) : Prop :=
  ∃ n < k, t = (ofBlock (blockName n)).toList

theorem IsBlockBelow.mono {k m : Nat} {t : List Char} (h : IsBlockBelow k t) (hkm : k ≤ m) :
    IsBlockBelow m t := by
  obtain ⟨n, hn, ht⟩ := h
  exact ⟨n, Nat.lt_of_lt_of_le hn hkm, ht⟩

theorem IsBlockBelow.isNameChar {k : Nat} {t : List Char} (h : IsBlockBelow k t) :
    ∀ c ∈ t, Token.isNameChar c = true := by
  obtain ⟨n, -, ht⟩ := h
  rw [ht]
  exact fun c hc => isNameChar_of_mem_ofBlock hc

end Placeholder

open Placeholder

/-- Between quotes there is an unmarked text, or else the placeholder of a block whose number is
below `k`. There are no escapes but those of quotes. -/
structure Tidy (k : Nat) (t : List Char) : Prop where
  noEscape : ∀ c ∈ Json.escapable, c ≠ '"' → ¬ ['\\', c] <:+: t
  unmarked : ∀ s ∈ splitOn '"' t, Unmarked s ∨ IsBlockBelow k s

namespace Tidy

variable {k m : Nat} {a b t : List Char} {c : Char}

theorem of_unmarked (k : Nat) (ht : Unmarked t) (he : Json.Escapeless t) : Tidy k t where
  noEscape c hc _ := he c hc
  unmarked _ hs := .inl (ht.part (infix_of_mem_splitOn hs))

theorem mono (h : Tidy k t) (hkm : k ≤ m) : Tidy m t where
  noEscape := h.noEscape
  unmarked s hs := (h.unmarked s hs).imp_right fun hs => hs.mono hkm

theorem escapeless (h : Tidy k t) (hq : ¬ ['\\', '"'] <:+: t) : Json.Escapeless t := by
  intro c hc
  by_cases hquote : c = '"'
  · exact hquote ▸ hq
  · exact h.noEscape c hc hquote

/-- A text may be cut before and after a character that is in no placeholder. -/
theorem cut (hc : Token.isNameChar c = false) (hq : c ≠ '"') (h : Tidy k (a ++ c :: b)) :
    (Tidy k a ∧ Tidy k (a ++ [c])) ∧ Tidy k b ∧ Tidy k (c :: b) := by
  obtain ⟨front, last, first, back, ha, hconcat, hb, hcons, hall⟩ := exists_splitOn_around hq a b
  have hno : ∀ {s : List Char}, s <:+: a ++ c :: b → ∀ d ∈ Json.escapable, d ≠ '"' →
      ¬ ['\\', d] <:+: s :=
    fun hs d hd hne hi => h.noEscape d hd hne (hi.trans hs)
  have hpieces := h.unmarked
  rw [hall, List.forall_mem_append, List.forall_mem_cons] at hpieces
  obtain ⟨hfront, hmid, hback⟩ := hpieces
  have hmid : Unmarked (last ++ c :: first) := by
    rcases hmid with h | h
    · exact h
    · have := h.isNameChar c (by simp)
      rw [hc] at this
      cases this
  refine ⟨⟨⟨hno ⟨[], c :: b, by simp⟩, ?_⟩, ⟨hno ⟨[], b, by simp⟩, ?_⟩⟩,
    ⟨hno ⟨a ++ [c], [], by simp⟩, ?_⟩, ⟨hno ⟨a, [], by simp⟩, ?_⟩⟩
  · rw [ha, List.forall_mem_append, List.forall_mem_singleton]
    exact ⟨hfront, .inl (hmid.part ⟨[], c :: first, by simp⟩)⟩
  · rw [hconcat, List.forall_mem_append, List.forall_mem_singleton]
    exact ⟨hfront, .inl (hmid.part ⟨[], first, by simp⟩)⟩
  · rw [hb, List.forall_mem_cons]
    exact ⟨.inl (hmid.part ⟨last ++ [c], [], by simp⟩), hback⟩
  · rw [hcons, List.forall_mem_cons]
    exact ⟨.inl (hmid.part ⟨last, [], by simp⟩), hback⟩

/-- A placeholder is put between two parts. -/
theorem insert {name : List Char} (ha : Tidy k a) (hn : IsBlockBelow k name) (hb : Tidy k b) :
    Tidy k (a ++ '"' :: (name ++ '"' :: b)) where
  noEscape d hd hne hi := by
    have hquote : '"' ∉ ['\\', d] := by simp [Ne.symm hne]
    rcases infix_or_of_notMem hquote hi with hi | hi
    · exact ha.noEscape d hd hne hi
    · rcases infix_or_of_notMem hquote hi with hi | hi
      · have := hn.isNameChar _ (hi.subset List.mem_cons_self)
        revert this
        decide
      · exact hb.noEscape d hd hne hi
  unmarked s hs := by
    have hname : '"' ∉ name := by
      intro hm
      have := hn.isNameChar _ hm
      revert this
      decide
    rw [splitOn_append_cons, splitOn_append_cons, splitOn_of_notMem hname, List.mem_append,
      List.mem_append, List.mem_singleton] at hs
    rcases hs with hs | rfl | hs
    · exact ha.unmarked s hs
    · exact .inr hn
    · exact hb.unmarked s hs

end Tidy

/-! ## Extraction -/

namespace Placeholders

/-- Each block is tidy, with placeholders of blocks of lower numbers only. -/
def Ordered (p : Placeholders) : Prop :=
  ∀ b ∈ p.blocks, ∃ n < p.nextBlock, b.1 = blockName n ∧ Tidy n b.2.template.toList

theorem ordered_empty : ({} : Placeholders).Ordered := by
  intro b hb
  cases hb

theorem Ordered.recordBlock {p : Placeholders} (h : p.Ordered) {template : List Char}
    (ht : Tidy p.nextBlock template) (count : Nat) :
    (p.recordBlock ⟨String.ofList template, count⟩).2.Ordered := by
  intro b hb
  rcases List.mem_append.1 hb with hb | hb
  · obtain ⟨n, hn, hname, htidy⟩ := h b hb
    exact ⟨n, Nat.lt_succ_of_lt hn, hname, htidy⟩
  · rw [List.mem_singleton.1 hb, String.toList_ofList]
    exact ⟨p.nextBlock, Nat.lt_succ_self _, rfl, ht⟩

end Placeholders

namespace RepeatBlock

/-- The texts that a tidy text is taken apart into are tidy. -/
theorem tidy_extractFrom (before after : List Char) (p : Placeholders)
    (h : Tidy p.nextBlock (before.reverse ++ after)) (hp : p.Ordered) :
    Tidy (extractFrom before after p).2.nextBlock (extractFrom before after p).1
      ∧ (extractFrom before after p).2.Ordered := by
  fun_induction extractFrom before after p with
  | case1 before p =>
    rw [List.append_nil] at h
    exact ⟨h, hp⟩
  | case2 before p c t hm ih =>
    refine ih ?_ hp
    rw [List.reverse_cons, List.append_assoc]
    exact h
  | case3 before p c t ds rest hm count template before' ha hc placeholder p' heq ih =>
    obtain ⟨blanks, hb⟩ := splitArray?_append ha
    obtain ⟨u, rfl⟩ := splitArray?_brackets ha
    obtain ⟨hmark, -⟩ := splitMark?_eq_some_iff.1 hm
    have htext : before.reverse ++ c :: t = before'.reverse ++ '[' :: (u
        ++ ']' :: (blanks ++ (markStart ++ ds) ++ ')' :: rest)) := by
      rw [hb, hmark, mark]
      simp
    rw [htext] at h
    obtain ⟨⟨hfront, -⟩, -, htail⟩ := h.cut (c := '[') rfl (by decide)
    rw [← List.cons_append] at htail
    obtain ⟨⟨-, htemplate⟩, hrest, -⟩ := htail.cut (c := ']') rfl (by decide)
    obtain ⟨-, hrest, -⟩ := hrest.cut (c := ')') rfl (by decide)
    obtain ⟨rfl, rfl⟩ := Prod.mk.inj heq
    refine ih ?_ (hp.recordBlock htemplate count)
    have hnew : ∀ ph : List Char, ('"' :: ph.reverse ++ '"' :: before').reverse ++ rest
        = before'.reverse ++ '"' :: (ph ++ '"' :: rest) := by simp
    rw [hnew]
    have hnext : p.nextBlock ≤ p.nextBlock + 1 := Nat.le_succ _
    exact (hfront.mono hnext).insert ⟨p.nextBlock, Nat.lt_succ_self _, rfl⟩ (hrest.mono hnext)
  | case4 before p c t ds rest hm => exact ⟨h, hp⟩

end RepeatBlock

end JsonTemplate
