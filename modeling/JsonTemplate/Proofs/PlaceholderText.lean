import JsonTemplate.Directive
import JsonTemplate.Placeholder

/-!
# The texts of placeholders

A placeholder is a word of letters, digits and underscores, and its number can be told from it: two
expressions, or two blocks, never share one.
-/

namespace JsonTemplate

open Text

/-- A word does not reach over a character that is none of its own. -/
theorem infix_or_of_notMem {α : Type} {c : α} {w : List α} (hc : c ∉ w) {s t : List α}
    (h : w <:+: s ++ c :: t) : w <:+: s ∨ w <:+: t := by
  rcases List.infix_append_iff.1 h with h | h | ⟨x, y, rfl, hx, hy⟩
  · exact .inl h
  · rcases List.infix_cons_iff.1 h with h | h
    · rcases List.prefix_cons_iff.1 h with rfl | ⟨y, rfl, -⟩
      · exact .inl (List.nil_infix)
      · exact absurd List.mem_cons_self hc
    · exact .inr h
  · rcases List.prefix_cons_iff.1 hy with rfl | ⟨y, rfl, -⟩
    · rw [List.append_nil]
      exact .inl hx.isInfix
    · exact absurd (by simp) hc

theorem Token.toNat_of_isNameChar {c : Char} (h : Token.isNameChar c = true) :
    48 ≤ c.toNat ∧ c.toNat ≤ 122 := by
  have h : (((decide (c.val ≥ 65 ∧ c.val ≤ 90) || decide (c.val ≥ 97) && decide (c.val ≤ 122))
      || decide (c.val ≥ 48) && decide (c.val ≤ 57)) || c == '_') = true := h
  simp only [Bool.or_eq_true, Bool.and_eq_true, decide_eq_true_eq, beq_iff_eq] at h
  rcases h with ((h | h) | h) | rfl
  · exact ⟨Nat.le_trans (by decide) (UInt32.le_iff_toNat_le.1 h.1),
      Nat.le_trans (UInt32.le_iff_toNat_le.1 h.2) (by decide)⟩
  · exact ⟨Nat.le_trans (by decide) (UInt32.le_iff_toNat_le.1 h.1),
      UInt32.le_iff_toNat_le.1 h.2⟩
  · exact ⟨UInt32.le_iff_toNat_le.1 h.1,
      Nat.le_trans (UInt32.le_iff_toNat_le.1 h.2) (by decide)⟩
  · decide

theorem Text.natText_injective {m n : Nat} (h : natText m = natText n) : m = n := by
  rw [← Nat.ofDigitChars_ten_toDigits (n := m), ← Nat.ofDigitChars_ten_toDigits (n := n)]
  exact congrArg (fun ds => Nat.ofDigitChars 10 ds 0) h

theorem Text.isDigit_of_mem_natText {c : Char} {n : Nat} (h : c ∈ natText n) : c.isDigit = true :=
  Nat.isDigit_of_mem_toDigits (by decide) (by decide) h

theorem Text.notMem_natText {c : Char} (hc : c.isDigit = false) (n : Nat) : c ∉ natText n := by
  intro h
  rw [isDigit_of_mem_natText h] at hc
  cases hc

theorem Text.isNameChar_of_mem_natText {c : Char} {n : Nat} (h : c ∈ natText n) :
    Token.isNameChar c = true := by
  simp [Token.isNameChar, Char.isAlphanum, isDigit_of_mem_natText h]

namespace Placeholder

theorem toList_expressionStart : "__EXPR_".toList = ['_', '_', 'E', 'X', 'P', 'R', '_'] :=
  rfl

theorem toList_blockStart : "__REPEAT_".toList = ['_', '_', 'R', 'E', 'P', 'E', 'A', 'T', '_'] :=
  rfl

theorem toList_nameStart : "ARRAY_".toList = ['A', 'R', 'R', 'A', 'Y', '_'] :=
  rfl

theorem toList_ending : "__".toList = ['_', '_'] :=
  rfl

theorem toList_ofExpression (n : Nat) :
    (ofExpression n).toList = ['_', '_', 'E', 'X', 'P', 'R', '_'] ++ natText n ++ ['_', '_'] := by
  unfold ofExpression
  rw [String.toList_ofList, toList_expressionStart, toList_ending]

theorem toList_blockName (n : Nat) :
    (blockName n).toList = ['A', 'R', 'R', 'A', 'Y', '_'] ++ natText n := by
  unfold blockName
  rw [String.toList_ofList, toList_nameStart]

theorem toList_ofBlock (name : String) : (ofBlock name).toList
    = ['_', '_', 'R', 'E', 'P', 'E', 'A', 'T', '_'] ++ name.toList ++ ['_', '_'] := by
  unfold ofBlock
  rw [String.toList_ofList, toList_blockStart, toList_ending]

theorem isNameChar_of_mem_ofExpression {c : Char} {n : Nat} (h : c ∈ (ofExpression n).toList) :
    Token.isNameChar c = true := by
  rw [toList_ofExpression, List.mem_append, List.mem_append] at h
  rcases h with (h | h) | h
  · exact List.all_eq_true.1 (by decide) c h
  · exact isNameChar_of_mem_natText h
  · exact List.all_eq_true.1 (by decide) c h

theorem isNameChar_of_mem_ofBlock {c : Char} {n : Nat}
    (h : c ∈ (ofBlock (blockName n)).toList) : Token.isNameChar c = true := by
  rw [toList_ofBlock, toList_blockName, List.mem_append, List.mem_append, List.mem_append] at h
  rcases h with (h | h | h) | h
  · exact List.all_eq_true.1 (by decide) c h
  · exact List.all_eq_true.1 (by decide) c h
  · exact isNameChar_of_mem_natText h
  · exact List.all_eq_true.1 (by decide) c h

theorem ofExpression_injective {m n : Nat} (h : ofExpression m = ofExpression n) : m = n := by
  have h := congrArg String.toList h
  rw [toList_ofExpression, toList_ofExpression] at h
  exact natText_injective (List.append_cancel_left (List.append_cancel_right h))

theorem blockName_injective {m n : Nat} (h : blockName m = blockName n) : m = n := by
  have h := congrArg String.toList h
  rw [toList_blockName, toList_blockName] at h
  exact natText_injective (List.append_cancel_left h)

/-- No token is a placeholder. -/
theorem ofList_text_ne_ofExpression (k : Token) (n : Nat) :
    String.ofList k.text ≠ ofExpression n := by
  intro h
  have h := congrArg String.toList h
  rw [String.toList_ofList, toList_ofExpression] at h
  cases h

theorem ofBlock_ne_ofExpression (name : String) (n : Nat) : ofBlock name ≠ ofExpression n := by
  intro h
  have h := congrArg String.toList h
  rw [toList_ofBlock, toList_ofExpression] at h
  cases h

theorem blockName?_ofBlock (name : String) :
    blockName? (ofBlock name).toList = some name.toList := by
  rw [toList_ofBlock, blockName?, toList_blockStart, toList_ending]
  simp [afterStart?, beforeEnd?, List.isPrefixOf]

theorem ofBlock_blockName_injective {m n : Nat}
    (h : ofBlock (blockName m) = ofBlock (blockName n)) : m = n := by
  have hname := blockName?_ofBlock (blockName m)
  rw [h, blockName?_ofBlock] at hname
  exact (blockName_injective (String.toList_inj.1 (Option.some.inj hname))).symm

/-- Only the placeholder of a block names it. -/
theorem eq_ofBlock_of_blockName? {s : String} {name : List Char}
    (h : blockName? s.toList = some name) : s = ofBlock (String.ofList name) := by
  obtain ⟨t, ht, hname⟩ := Option.bind_eq_some_iff.1 h
  obtain ⟨u, hu, rfl⟩ := Option.map_eq_some_iff.1 hname
  have hend := congrArg List.reverse (eq_of_afterStart? hu)
  rw [List.reverse_reverse, List.reverse_append, List.reverse_reverse] at hend
  rw [← String.toList_inj, toList_ofBlock, eq_of_afterStart? ht, hend, toList_blockStart,
    toList_ending, String.toList_ofList]
  rfl

theorem blockName?_ofExpression (n : Nat) : blockName? (ofExpression n).toList = none := by
  rw [toList_ofExpression, blockName?, toList_blockStart]
  simp [afterStart?, List.isPrefixOf]

end Placeholder

end JsonTemplate
