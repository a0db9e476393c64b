import JsonTemplate.Proofs.Marks

/-!
# Texts with holes

While the blocks of a text are taken out, the text consists of its own characters and of the
placeholders of the blocks taken out so far: the two kinds of `Bit`. A character that is in no
placeholder is a bit of its own (`Bit.exists_eq_of_textOf`).
-/

namespace JsonTemplate

/-- A character, or the placeholder of the block with the given number. -/
inductive Bit
  | char (c : Char)
  | block (n : Nat)
  deriving DecidableEq

namespace Bit

def text : Bit → List Char
  | .char c => [c]
  | .block n => '"' :: (Placeholder.ofBlock (Placeholder.blockName n)).toList ++ ['"']

def IsBlock : Bit → Prop
  | .char _ => False
  | .block _ => True

/-- The text of bits. -/
def textOf (bits : List Bit) : List Char :=
  bits.flatMap text

@[simp] theorem textOf_nil : textOf [] = [] :=
  rfl

@[simp] theorem textOf_char (c : Char) (bits : List Bit) :
    textOf (.char c :: bits) = c :: textOf bits :=
  rfl

@[simp] theorem textOf_append (xs ys : List Bit) : textOf (xs ++ ys) = textOf xs ++ textOf ys :=
  List.flatMap_append

theorem textOf_map_char : ∀ t : List Char, textOf (t.map .char) = t
  | [] => rfl
  | c :: t => congrArg (c :: ·) (textOf_map_char t)

/-- The characters of a placeholder between its quotes. -/
theorem textOf_block (n : Nat) (bits : List Bit) : ∃ u, (∀ c ∈ u, Token.isNameChar c = true)
    ∧ textOf (.block n :: bits) = '"' :: '_' :: (u ++ '"' :: textOf bits) := by
  have hplaceholder := Placeholder.toList_ofBlock (Placeholder.blockName n)
  refine ⟨(Placeholder.ofBlock (Placeholder.blockName n)).toList.tail, fun c hc => ?_, ?_⟩
  · exact Placeholder.isNameChar_of_mem_ofBlock (List.mem_of_mem_tail hc)
  · rw [textOf, List.flatMap_cons, text, hplaceholder]
    simp [textOf]

theorem eq_nil_of_textOf {bits : List Bit} (h : textOf bits = []) : bits = [] := by
  rcases bits with _ | ⟨c | n, bits⟩
  · rfl
  · cases h
  · obtain ⟨u, -, htext⟩ := textOf_block n bits
    rw [htext] at h
    cases h

/-- A character that is in no placeholder is a bit. -/
theorem exists_eq_of_textOf {c : Char} (hquote : c ≠ '"') (hname : Token.isNameChar c = false) :
    ∀ {bits : List Bit} {x y : List Char}, textOf bits = x ++ c :: y →
      ∃ xs ys, bits = xs ++ .char c :: ys ∧ textOf xs = x ∧ textOf ys = y
  | [], x, y, h => by simp at h
  | .char d :: bits, x, y, h => by
    cases x with
    | nil =>
      obtain ⟨rfl, hrest⟩ := List.cons.inj h
      exact ⟨[], bits, rfl, rfl, hrest⟩
    | cons e x =>
      obtain ⟨rfl, hrest⟩ := List.cons.inj h
      obtain ⟨xs, ys, rfl, hxs, hys⟩ := exists_eq_of_textOf hquote hname hrest
      exact ⟨.char d :: xs, ys, rfl, by rw [textOf_char, hxs], hys⟩
  | .block n :: bits, x, y, h => by
    have hnot : c ∉ text (.block n) := by
      intro hmem
      rw [text, List.cons_append, List.mem_cons, List.mem_append, List.mem_singleton] at hmem
      rcases hmem with hmem | hmem | hmem
      · exact hquote hmem
      · rw [Placeholder.isNameChar_of_mem_ofBlock hmem] at hname
        cases hname
      · exact hquote hmem
    have htext : x ++ c :: y = text (.block n) ++ textOf bits := h.symm
    obtain ⟨x', rfl⟩ := RepeatBlock.eq_append_of_append_eq hnot htext
    rw [List.append_assoc, List.append_cancel_left_eq] at htext
    obtain ⟨xs, ys, rfl, hxs, hys⟩ := exists_eq_of_textOf hquote hname htext.symm
    refine ⟨.block n :: xs, ys, rfl, ?_, hys⟩
    rw [← hxs]
    rfl

end Bit

end JsonTemplate
