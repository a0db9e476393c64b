import Mathlib.Data.List.TakeWhile
import JsonTemplate.Proofs.Excerpt
import JsonTemplate.Proofs.Intrusion
import JsonTemplate.Proofs.Shapes

/-!
# Slots

Where the blocks of a text stand on their own, the text is cut in the same places however its blocks
are numbered: it is a row of slots, each of them a character, a chain or a block
(`Slot.cut_textFrom`). A chain ends where it does because of what follows it, and of that only as
much matters as does not depend on the words of placeholders.
-/

namespace JsonTemplate

open Text

/-! ## Kindred texts -/

namespace Kindred

variable {t t' : List Char}

theorem symm (h : Kindred t t') : Kindred t' t := by
  induction h with
  | nil => exact .nil
  | char c _ ih => exact ih.char c
  | word hw hw' _ ih => exact .word hw' hw ih

theorem head?_eq (h : Kindred t t') : t'.head? = t.head? := by
  cases h <;> rfl

theorem exists_eq_cons {c : Char} {w : List Char} (hc : c ≠ '"') (h : Kindred (c :: t) w) :
    ∃ t', w = c :: t' ∧ Kindred t t' := by
  cases h with
  | char _ h => exact ⟨_, rfl, h⟩
  | word => exact absurd rfl hc

/-- Kindred texts are the same up to the first quote. -/
theorem exists_eq_append {u w : List Char} (hu : '"' ∉ u) (h : Kindred (u ++ t) w) :
    ∃ t', w = u ++ t' ∧ Kindred t t' := by
  induction u generalizing w with
  | nil => exact ⟨w, rfl, h⟩
  | cons c u ih =>
    rw [List.mem_cons, not_or] at hu
    obtain ⟨w', rfl, hw⟩ := h.exists_eq_cons (Ne.symm hu.1)
    obtain ⟨t', rfl, ht⟩ := ih hu.2 hw
    exact ⟨t', rfl, ht⟩

theorem mem_of_mem {c : Char} (hquote : c ≠ '"') (hname : Token.isNameChar c = false)
    (h : Kindred t t') (hc : c ∈ t) : c ∈ t' := by
  induction h with
  | nil => exact hc
  | char d _ ih =>
    rcases List.mem_cons.1 hc with rfl | hc
    · exact List.mem_cons_self
    · exact List.mem_cons_of_mem d (ih hc)
  | word hw _ _ ih =>
    simp only [List.mem_cons, List.mem_append] at hc ⊢
    rcases hc with hc | hc | hc | hc
    · exact absurd hc hquote
    · rw [hw.2.2 c hc] at hname
      cases hname
    · exact absurd hc hquote
    · exact .inr (.inr (.inr (ih hc)))

end Kindred

/-- Two numberings of the blocks of a text. -/
theorem Bit.kindred_textFrom (m m' : Nat) : ∀ bits : List Bit,
    Kindred (textFrom m bits) (textFrom m' bits)
  | [] => .nil
  | .char c :: bits => (kindred_textFrom m m' bits).char c
  | .block n :: bits => by
    have := Kindred.word (Placeholder.isWord_ofBlock (m + n)) (Placeholder.isWord_ofBlock (m' + n))
      (kindred_textFrom m m' bits)
    simpa [text] using this

/-! ## What follows a chain -/

namespace Token

theorem splitName?_eq_none_iff {t : List Char} :
    splitName? t = none ↔ ∀ c ∈ t.head?, isNameStart c = false := by
  cases t with
  | nil => simp [splitName?]
  | cons c t => simp [splitName?]

theorem splitMethod_fst_eq_none_iff {t : List Char} :
    (splitMethod t).1 = none ↔ ∀ u, t = '.' :: u → splitName? u = none := by
  unfold splitMethod
  split
  · rename_i u
    cases hu : splitName? u with
    | none => simp [hu]
    | some r => simp [hu]
  · rename_i hne
    exact ⟨fun _ u hu => absurd hu (hne u), fun _ => rfl⟩

theorem splitArguments_fst_eq_none_iff {t : List Char} :
    (splitArguments t).1 = none ↔ ∀ u, t = '(' :: u → ')' ∉ u := by
  unfold splitArguments
  split
  · rename_i u
    have hiff : u.dropWhile (· != ')') = [] ↔ ')' ∉ u := by
      rw [List.dropWhile_eq_nil_iff]
      simp only [bne_iff_ne]
      exact ⟨fun h hm => h _ hm rfl, fun h c hc hcc => h (hcc ▸ hc)⟩
    split
    · rename_i d rest hd
      simp only [reduceCtorEq, List.cons.injEq, true_and, forall_eq', false_iff]
      rw [← hiff, hd]
      exact List.cons_ne_nil d rest
    · rename_i hd
      simpa using hiff.1 hd
  · rename_i hne
    exact ⟨fun _ u hu => absurd hu (hne u), fun _ => rfl⟩

theorem EndsBefore.kindred {k : Token} {t t' : List Char} (h : k.EndsBefore t)
    (ht : Kindred t t') : k.EndsBefore t' where
  name ha := by
    rw [ht.head?_eq]
    exact h.name ha
  method ha hm := by
    rw [splitMethod_fst_eq_none_iff]
    rintro u rfl
    obtain ⟨v, rfl, hv⟩ := ht.symm.exists_eq_cons (by decide)
    have := splitName?_eq_none_iff.1 (splitMethod_fst_eq_none_iff.1 (h.method ha hm) v rfl)
    rw [hv.head?_eq] at this
    exact splitName?_eq_none_iff.2 this
  arguments ha := by
    rw [splitArguments_fst_eq_none_iff]
    rintro u rfl hu
    obtain ⟨v, rfl, hv⟩ := ht.symm.exists_eq_cons (by decide)
    exact splitArguments_fst_eq_none_iff.1 (h.arguments ha) v rfl (hv.mem_of_mem (by decide) rfl hu)

end Token

namespace Operand

theorem splitQuoted_append_congr {b t t' : List Char} (ht : t = [] → t' = []) :
    ∀ {escaped : Bool}, splitQuoted escaped (b ++ t) = (b, t) →
      splitQuoted escaped (b ++ t') = (b, t') := by
  induction b with
  | nil =>
    intro escaped h
    cases t with
    | nil =>
      rw [ht rfl]
      cases escaped <;> rfl
    | cons c t =>
      obtain ⟨u, hu⟩ := Json.splitQuoted_cons_fst escaped c t
      rw [List.nil_append] at h
      rw [h] at hu
      cases hu
  | cons c b ih =>
    intro escaped h
    cases escaped with
    | true =>
      simp only [List.cons_append, splitQuoted, Prod.mk.injEq, List.cons.injEq, true_and] at h ⊢
      exact Prod.ext_iff.1 (ih (Prod.ext h.1 h.2))
    | false =>
      by_cases hc : c = '"'
      · simp only [List.cons_append, splitQuoted, if_pos hc, Prod.mk.injEq, List.cons.injEq] at h ⊢
        exact ⟨⟨trivial, h.1.2⟩, by rw [← h.1.2]; rfl⟩
      · simp only [List.cons_append, splitQuoted, if_neg hc, Prod.mk.injEq, List.cons.injEq,
          true_and] at h ⊢
        exact Prod.ext_iff.1 (ih (Prod.ext h.1 h.2))

theorem split?_kindred {o : Operand} {t t' : List Char} (h : split? (o.text ++ t) = some (o, t))
    (ht : Kindred t t') : split? (o.text ++ t') = some (o, t') := by
  rcases split?_eq_some h with ⟨u, hu, rfl, hrest⟩ | ⟨k, hk, rfl⟩
  · have hnil : t = [] → t' = [] := by
      rintro rfl
      cases ht
      rfl
    rw [text, List.cons_append, List.cons.injEq] at hu
    have hquoted : splitQuoted false ((splitQuoted false u).1 ++ t)
        = ((splitQuoted false u).1, t) := by rw [hu.2, hrest]
    rw [text, List.cons_append, split?, splitQuoted_append_congr hnil hquoted]
  · have hsplit := ((Token.endsBefore_of_split? hk).kindred ht).split?_append
      (Token.wellFormed_of_split? hk)
    rw [text, split?, hsplit]
    · rfl
    · simp [Token.text]

theorem split?_eq_none_iff {t : List Char} :
    split? t = none ↔ '"' ∉ t.head? ∧ ∀ u, t = '@' :: u → Token.splitName? u = none := by
  unfold split?
  split
  · simp
  · rename_i hne
    rw [Option.map_eq_none_iff]
    constructor
    · intro h
      refine ⟨fun hq => ?_, ?_⟩
      · obtain ⟨u, rfl⟩ := List.head?_eq_some_iff.1 hq
        exact hne u rfl
      · rintro u rfl
        cases hn : Token.splitName? u with
        | none => rfl
        | some r => simp [Token.split?, hn] at h
    · rintro ⟨-, h⟩
      unfold Token.split?
      split
      · rename_i u
        rw [h u rfl]
        rfl
      · rfl

theorem split?_eq_none_of_kindred {t t' : List Char} (h : split? t = none) (ht : Kindred t t') :
    split? t' = none := by
  rw [split?_eq_none_iff] at h ⊢
  rw [ht.head?_eq]
  refine ⟨h.1, ?_⟩
  rintro u rfl
  obtain ⟨v, rfl, hv⟩ := ht.symm.exists_eq_cons (by decide)
  have := Token.splitName?_eq_none_iff.1 (h.2 v rfl)
  rw [hv.head?_eq] at this
  exact Token.splitName?_eq_none_iff.2 this

end Operand

theorem splitJoin?_eq_none_of_kindred {t t' : List Char} (h : splitJoin? t = none)
    (ht : Kindred t t') : splitJoin? t' = none := by
  cases hj : splitJoin? t' with
  | none => rfl
  | some r =>
    obtain ⟨join, o, rest⟩ := r
    obtain ⟨before, after, u, hb, ha, rfl, rfl, ho⟩ := splitJoin?_eq_some hj
    have hquote : '"' ∉ before ++ '+' :: after := by
      rw [List.mem_append, List.mem_cons, not_or, not_or]
      refine ⟨fun hm => ?_, by decide, fun hm => ?_⟩
      · exact absurd (hb _ hm) (by decide)
      · exact absurd (ha _ hm) (by decide)
    obtain ⟨v, rfl, hv⟩ := ht.symm.exists_eq_append hquote
    cases hv' : Operand.split? v with
    | none =>
      rw [Operand.split?_eq_none_of_kindred hv' hv.symm] at ho
      cases ho
    | some r =>
      have hj := splitJoin?_of_operand ⟨before, hb⟩ ⟨after, ha⟩ hv'
      rw [List.append_assoc, List.cons_append, hj] at h
      cases h

theorem splitJoin?_kindred {join t t' : List Char} {o : Operand}
    (h : splitJoin? (join ++ (o.text ++ t)) = some (join, o, t)) (ht : Kindred t t') :
    splitJoin? (join ++ (o.text ++ t')) = some (join, o, t') := by
  obtain ⟨before, after, w, hb, ha, rfl, hw, ho⟩ := splitJoin?_eq_some h
  obtain rfl := List.append_cancel_left hw
  have := splitJoin?_of_operand ⟨before, hb⟩ ⟨after, ha⟩ (Operand.split?_kindred ho ht)
  simpa using this

namespace Chain

theorem splitJoined_kindred {t t' : List Char} (ht : Kindred t t') : ∀ (operands : List Operand)
    (u : List Char), splitJoined (u ++ t) = (⟨u, operands⟩, t) →
      splitJoined (u ++ t') = (⟨u, operands⟩, t')
  | [], u, h => by
    cases hj : splitJoin? (u ++ t) with
    | none =>
      rw [splitJoined_of_none hj] at h
      cases h
      exact splitJoined_of_none (splitJoin?_eq_none_of_kindred hj ht)
    | some r =>
      rw [splitJoined_of_some hj] at h
      cases h
  | o :: operands, u, h => by
    cases hj : splitJoin? (u ++ t) with
    | none =>
      rw [splitJoined_of_none hj] at h
      cases h
    | some r =>
      obtain ⟨join, o', rest⟩ := r
      have hjoined := splitJoined_append rest
      rw [splitJoined_of_some hj] at h
      simp only [Prod.mk.injEq, Chain.mk.injEq, List.cons.injEq] at h
      obtain ⟨⟨rfl, rfl, hoperands⟩, hrest⟩ := h
      rw [hrest] at hjoined
      have ih := splitJoined_kindred ht operands (splitJoined rest).1.text
        (by rw [hjoined, ← hoperands, ← hrest])
      have hkindred : Kindred rest ((splitJoined rest).1.text ++ t') := by
        have := ht.append (splitJoined rest).1.text
        rwa [hjoined] at this
      have hj' : splitJoin? (join ++ (o'.text ++ rest)) = some (join, o', rest) := by
        rw [List.append_assoc, List.append_assoc, hjoined] at hj
        exact hj
      have hsome := splitJoined_of_some (splitJoin?_kindred hj' hkindred)
      rw [ih] at hsome
      simpa using hsome

/-- A chain is taken off its text where it ends, whatever words follow. -/
theorem split?_kindred {chain : Chain} {t t' : List Char}
    (h : split? (chain.text ++ t) = some (chain, t)) (ht : Kindred t t') :
    split? (chain.text ++ t') = some (chain, t') := by
  obtain ⟨o, rest, ho, hrest, hchain⟩ := split?_eq_some h
  have hjoined := splitJoined_append rest
  rw [← hrest] at hjoined
  rw [hchain, List.append_assoc]
  have happ := Operand.split?_append ho
  have ho' := Operand.split?_kindred (happ ▸ ho) (hjoined ▸ ht.append (splitJoined rest).1.text)
  have hjoined' := splitJoined_kindred ht (splitJoined rest).1.operands
    (splitJoined rest).1.text (by rw [hjoined, hrest])
  rw [split?, ho']
  simp [hjoined']

theorem split?_eq_none_of_kindred {t t' : List Char} (h : split? t = none) (ht : Kindred t t') :
    split? t' = none := by
  rw [split?, Option.map_eq_none_iff] at h ⊢
  exact Operand.split?_eq_none_of_kindred h ht

/-- A literal on its own. -/
def ofLiteral (t : List Char) : Chain :=
  ⟨t, [.literal t]⟩

end Chain

/-- The placeholder of a block is a chain of its own if nothing is joined to it. -/
theorem Chain.split?_block_iff (n : Nat) (t : List Char) :
    split? (Bit.text (.block n) ++ t) = some (.ofLiteral (Bit.text (.block n)), t)
      ↔ splitJoin? t = none := by
  have hoperand : Operand.split? (Bit.text (.block n) ++ t)
      = some (.literal (Bit.text (.block n)), t) := by
    have := Operand.splitQuoted_plain (fun c hc =>
      Token.plain_of_isNameChar ((Placeholder.isWord_ofBlock n).2.2 c hc)) t
    simp [Bit.text, Operand.split?, this]
  rw [split?, hoperand, Option.map_some]
  constructor
  · intro h
    cases hj : splitJoin? t with
    | none => rfl
    | some r =>
      simp [splitJoined_of_some hj, ofLiteral] at h
  · intro h
    simp [splitJoined_of_none h, ofLiteral, Operand.text]

/-! ## Slots -/

namespace Piece

theorem eq_cons_of_cut {c : Char} {t : List Char} {ps : List Piece}
    (h : cut t = .other c :: ps) : ∃ u, t = c :: u ∧ Chain.split? t = none ∧ cut u = ps := by
  cases t with
  | nil =>
    rw [cut] at h
    cases h
  | cons d u =>
    cases hs : Chain.split? (d :: u) with
    | none =>
      rw [cut_of_split?_eq_none hs] at h
      cases h
      exact ⟨u, rfl, rfl, rfl⟩
    | some r =>
      rw [cut_of_split? hs] at h
      cases h

theorem split?_of_cut {chain : Chain} {t : List Char} {ps : List Piece}
    (h : cut t = .chained chain :: ps) :
    ∃ rest, Chain.split? t = some (chain, rest) ∧ cut rest = ps := by
  cases hs : Chain.split? t with
  | none =>
    cases t with
    | nil =>
      rw [cut] at h
      cases h
    | cons c u =>
      rw [cut_of_split?_eq_none hs] at h
      cases h
  | some r =>
    rw [cut_of_split? hs] at h
    cases h
    exact ⟨r.2, rfl, rfl⟩

end Piece

/-- A character outside the chains, a chain, or a block with nothing joined to it. -/
inductive Slot
  | other (c : Char)
  | chained (chain : Chain)
  | block (n : Nat)

namespace Slot

open Bit

/-- What a slot is made of. -/
def bits : Slot → List Bit
  | .other c => [.char c]
  | .chained chain => chain.text.map .char
  | .block n => [.block n]

/-- The slot as a piece, with blocks numbered from `m` on. -/
def piece (m : Nat) : Slot → Piece
  | .other c => .other c
  | .chained chain => .chained chain
  | .block n => .chained (.ofLiteral (text (.block (m + n))))

/-- Blocks that stand on their own do so with all numbers, and the chains are the same. -/
theorem cut_textFrom {m : Nat} (m' : Nat) : ∀ {slots : List Slot},
    Piece.cut (textFrom m (slots.flatMap bits)) = slots.map (piece m) →
      Piece.cut (textFrom m' (slots.flatMap bits)) = slots.map (piece m')
  | [], _ => by
    rw [List.flatMap_nil, textFrom_nil, Piece.cut]
    rfl
  | .other c :: slots, h => by
    have hkindred := kindred_textFrom m m' ((Slot.other c :: slots).flatMap bits)
    obtain ⟨u, hu, hnone, hcut⟩ := Piece.eq_cons_of_cut h
    obtain ⟨-, rfl⟩ := List.cons.inj hu
    rw [List.flatMap_cons] at hnone hkindred ⊢
    exact (Piece.cut_of_split?_eq_none (Chain.split?_eq_none_of_kindred hnone hkindred)).trans
      (congrArg _ (cut_textFrom m' hcut))
  | .chained chain :: slots, h => by
    obtain ⟨rest, hsplit, hcut⟩ := Piece.split?_of_cut h
    have happ := Chain.split?_append hsplit
    rw [List.flatMap_cons, textFrom_append, bits, textFrom_map_char] at happ hsplit ⊢
    obtain rfl := List.append_cancel_left happ
    rw [Piece.cut_of_split? (Chain.split?_kindred hsplit (kindred_textFrom m m' _)),
      cut_textFrom m' hcut]
    rfl
  | .block n :: slots, h => by
    obtain ⟨rest, hsplit, hcut⟩ := Piece.split?_of_cut h
    have happ := Chain.split?_append hsplit
    rw [List.flatMap_cons, bits, List.singleton_append, textFrom_block] at happ hsplit ⊢
    obtain rfl := List.append_cancel_left happ
    have hnone := splitJoin?_eq_none_of_kindred ((Chain.split?_block_iff _ _).1 hsplit)
      (kindred_textFrom m m' _)
    rw [Piece.cut_of_split? ((Chain.split?_block_iff _ _).2 hnone), cut_textFrom m' hcut]
    rfl

end Slot

end JsonTemplate
