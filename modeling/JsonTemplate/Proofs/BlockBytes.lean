import JsonTemplate.Bytewise.RepeatBlock
import JsonTemplate.Proofs.Cuts
import JsonTemplate.Proofs.Marks

/-!
# The bytes of a block

An ASCII byte occurs in the code of its own character only (`Codes.eq_iff`). So the walk back over
the bytes meets the blanks and brackets that a walk over the characters meets, takes a bracket off
only where one is open, and stops at places of the text (`arrayBefore_eq`).
-/

namespace JsonTemplate.Bytewise

open Text

variable {t rest : List Char} {c d : Char} {pos : Nat}

/-! ## Bytes and characters -/

/-- A byte of the code of `c`, read as the character `d`: either is the other, or neither is
ASCII. -/
def Codes (c d : Char) : Prop :=
  d = c ∨ 128 ≤ d.toNat ∧ 128 ≤ c.toNat

theorem codes_of_mem {b : UInt8} (h : b ∈ String.utf8EncodeChar c) : Codes c (Char.ofUInt8 b) := by
  have hbyte (n : Nat) : (Char.ofUInt8 (UInt8.ofNat n)).toNat = n % 256 := UInt8.toNat_ofNat'
  have hval : c.val.toNat = c.toNat := rfl
  unfold String.utf8EncodeChar at h
  dsimp only at h
  -- The code of one byte is the character's number; in any longer one all bytes have their top bit.
  split at h
  · rw [List.mem_singleton] at h
    refine .inl (Char.toNat_inj.1 ?_)
    rw [h, hbyte]
    omega
  · refine .inr ⟨?_, by omega⟩
    split at h
    · simp only [List.mem_cons, List.not_mem_nil, or_false] at h
      rcases h with rfl | rfl <;> rw [hbyte] <;> omega
    · split at h
      · simp only [List.mem_cons, List.not_mem_nil, or_false] at h
        rcases h with rfl | rfl | rfl <;> rw [hbyte] <;> omega
      · simp only [List.mem_cons, List.not_mem_nil, or_false] at h
        rcases h with rfl | rfl | rfl | rfl <;> rw [hbyte] <;> omega

namespace Codes

theorem eq_iff (h : Codes c d) {e : Char} (he : e.toNat < 128) : d = e ↔ c = e := by
  rcases h with rfl | ⟨hd, hc⟩
  · rfl
  · constructor
    · rintro rfl
      omega
    · rintro rfl
      omega

theorem isAsciiBlank_eq (h : Codes c d) : isAsciiBlank d = isAsciiBlank c := by
  rw [Bool.eq_iff_iff]
  simp only [isAsciiBlank, Bool.or_eq_true, beq_iff_eq]
  rw [h.eq_iff (by decide), h.eq_iff (by decide), h.eq_iff (by decide), h.eq_iff (by decide),
    h.eq_iff (by decide)]

end Codes

theorem length_bytes (t : List Char) : (bytes t).length = utf8Length t := by
  induction t with
  | nil => rfl
  | cons c t ih =>
    rw [bytes] at ih
    rw [bytes, List.flatMap_cons, List.length_append, String.length_utf8EncodeChar, ih, utf8Length]

/-- The bytes from a character's place on are those of its code. -/
theorem At.exists_byteAt (h : At t pos (c :: rest)) {k : Nat} (hk : k < c.utf8Size) :
    ∃ d, byteAt t (pos + k) = pure d ∧ Codes c d := by
  obtain ⟨front, rfl, rfl⟩ := h
  have hk' : k < (String.utf8EncodeChar c).length := by rwa [String.length_utf8EncodeChar]
  refine ⟨_, ?_, codes_of_mem (List.getElem_mem hk')⟩
  rw [byteAt, orFault_eq_pure_iff, bytes, List.flatMap_append, List.flatMap_cons, ← bytes,
    ← length_bytes, List.getElem?_append_right (Nat.le_add_right _ _), Nat.add_sub_cancel_left,
    List.getElem?_append_left hk', List.getElem?_eq_getElem hk', Option.map_some]

/-- The code of an ASCII character is one byte. -/
theorem At.byteAt_ascii (h : At t pos (c :: rest)) (hc : c.toNat < 128) :
    byteAt t pos = pure c := by
  obtain ⟨d, hd, hcode⟩ := h.exists_byteAt c.utf8Size_pos
  rwa [(hcode.eq_iff hc).2 rfl] at hd

/-! ## Walking back -/

/-- The text before an offset, from right to left, and the text from there on. -/
theorem At.back {before : List Char} (h : t = (c :: before).reverse ++ rest) :
    t = before.reverse ++ (c :: rest) ∧ At t (utf8Length before) (c :: rest) := by
  have ht : t = before.reverse ++ (c :: rest) := by simpa using h
  exact ⟨ht, before.reverse, ht, utf8Length_reverse before⟩

/-- The last byte that is no blank is the last byte of the last character that is none. -/
theorem lastNonBlank_eq (before : List Char) {after : List Char}
    (ht : t = before.reverse ++ after) : lastNonBlank t (utf8Length before)
      = pure (match before.dropWhile isAsciiBlank with
        | [] => none
        | c :: before => some (utf8Length before + (c.utf8Size - 1))) := by
  induction before generalizing after with
  | nil => rfl
  | cons c before ih =>
    obtain ⟨ht, hc⟩ := At.back ht
    have hsize := c.utf8Size_pos
    obtain ⟨d, hd, hcode⟩ := hc.exists_byteAt (k := c.utf8Size - 1) (by omega)
    have hpos : utf8Length (c :: before) = utf8Length before + (c.utf8Size - 1) + 1 := by
      rw [utf8Length]
      omega
    rw [hpos, lastNonBlank, hd, pure_bind, hcode.isAsciiBlank_eq]
    by_cases hblank : isAsciiBlank c = true
    · have hone := utf8Size_of_isAsciiBlank hblank
      rw [if_pos hblank, hone, List.dropWhile_cons_of_pos hblank]
      exact ih ht
    · rw [if_neg hblank, List.dropWhile_cons_of_neg hblank]

/-- Any other character than a bracket is passed over, byte by byte. -/
theorem openingBefore_skip (h : At t pos (c :: rest)) (hclose : c ≠ ']') (hopen : c ≠ '[')
    (depth : Nat) : ∀ {k : Nat}, k ≤ c.utf8Size →
      openingBefore t depth (pos + k) = openingBefore t depth pos
  | 0, _ => rfl
  | k + 1, hk => by
    obtain ⟨d, hd, hcode⟩ := h.exists_byteAt hk
    have hclose' : d ≠ ']' := (hcode.eq_iff (by decide)).not.2 hclose
    have hopen' : d ≠ '[' := (hcode.eq_iff (by decide)).not.2 hopen
    rw [← Nat.add_assoc, openingBefore, hd, pure_bind, if_neg hclose', if_neg hopen']
    exact openingBefore_skip h hclose hopen depth (Nat.le_of_succ_le hk)

/-- As long as a bracket is open none too many is taken off, and the bracket that is found is at a
place of the text. -/
theorem openingBefore_eq (before : List Char) {after : List Char} (ht : t = before.reverse ++ after)
    {depth : Nat} (hdepth : 0 < depth) (taken : List Char) :
    openingBefore t depth (utf8Length before)
      = pure ((RepeatBlock.splitBracket? depth taken before).map fun r => utf8Length r.2) := by
  induction before generalizing depth taken after with
  | nil => rfl
  | cons c before ih =>
    obtain ⟨ht, hc⟩ := At.back ht
    have hpos : utf8Length (c :: before) = utf8Length before + c.utf8Size := by
      rw [utf8Length, Nat.add_comm]
    rw [RepeatBlock.splitBracket?]
    by_cases hclose : c = ']'
    · subst hclose
      rw [if_pos rfl, hpos, show utf8Length before + ']'.utf8Size = utf8Length before + 1 from rfl,
        openingBefore, hc.byteAt_ascii (by decide), pure_bind, if_pos rfl]
      exact ih ht (Nat.succ_pos depth) (']' :: taken)
    · rw [if_neg hclose]
      by_cases hopen : c = '['
      · subst hopen
        rw [if_pos rfl, hpos,
          show utf8Length before + '['.utf8Size = utf8Length before + 1 from rfl, openingBefore,
          hc.byteAt_ascii (by decide), pure_bind, if_neg hclose, if_pos rfl, minus_eq hdepth,
          pure_bind]
        by_cases hlast : depth ≤ 1
        · rw [if_pos hlast, if_pos (by omega)]
          rfl
        · rw [if_neg hlast, if_neg (by omega)]
          exact ih ht (by omega) ('[' :: taken)
      · rw [if_neg hopen, hpos, openingBefore_skip hc hclose hopen depth le_rfl]
        exact ih ht hdepth (c :: taken)

/-- A closing bracket is one byte. -/
theorem utf8Length_of_splitBracket? {before template front : List Char} {depth : Nat}
    (h : RepeatBlock.splitBracket? depth [']'] before = some (template, front)) :
    utf8Length before = utf8Length front + (utf8Length template - 1) := by
  have hlength := congrArg utf8Length (RepeatBlock.splitBracket?_append h)
  rw [utf8Length_append, utf8Length_append, utf8Length_reverse, utf8Length_reverse] at hlength
  have hone : utf8Length [']'] = 1 := rfl
  have hpos : 0 < utf8Length template := by
    obtain ⟨u, rfl⟩ := RepeatBlock.splitBracket?_head h
    exact utf8Length_cons_pos '[' _
  omega

theorem splitArray?_eq {before front : List Char}
    (h : before.dropWhile isAsciiBlank = c :: front) : RepeatBlock.splitArray? before =
      if c = ']' then RepeatBlock.splitBracket? 1 [']'] front else none := by
  rw [RepeatBlock.splitArray?, h]
  split
  · rename_i heq
    cases heq
    rfl
  · rename_i hne
    rw [if_neg]
    rintro rfl
    exact hne front rfl

/-- The brackets of the array are places of the text. -/
theorem arrayBefore_eq (before after : List Char) :
    arrayBefore (before.reverse ++ after) (utf8Length before)
      = pure ((RepeatBlock.splitArray? before).map fun (template, front) =>
        (utf8Length front, utf8Length front + (utf8Length template - 1))) := by
  rw [arrayBefore, lastNonBlank_eq before rfl, pure_bind]
  cases hd : before.dropWhile isAsciiBlank with
  | nil =>
    rw [RepeatBlock.splitArray?, hd]
    rfl
  | cons c front =>
    have hbefore : before = before.takeWhile isAsciiBlank ++ c :: front := by
      rw [← hd, List.takeWhile_append_dropWhile]
    obtain ⟨rest, ht⟩ : ∃ rest, before.reverse ++ after = (c :: front).reverse ++ rest :=
      ⟨(before.takeWhile isAsciiBlank).reverse ++ after, by
        rw [← List.append_assoc, ← List.reverse_append, ← hbefore]⟩
    obtain ⟨hfront, hc⟩ := At.back ht
    obtain ⟨d, hbyte, hcode⟩ := hc.exists_byteAt (Nat.sub_lt c.utf8Size_pos Nat.one_pos)
    dsimp only
    rw [hbyte, pure_bind, splitArray?_eq hd]
    simp only [hcode.eq_iff (e := ']') (by decide)]
    by_cases hclose : c = ']'
    · subst hclose
      rw [if_pos rfl, if_pos rfl,
        show utf8Length front + (']'.utf8Size - 1) = utf8Length front from rfl,
        openingBefore_eq front hfront Nat.one_pos [']'], pure_bind]
      cases hs : RepeatBlock.splitBracket? 1 [']'] front with
      | none => rfl
      | some r =>
        rw [utf8Length_of_splitBracket? hs]
        rfl
    · rw [if_neg hclose, if_neg hclose]
      rfl

/-- The array and the text before it are cut out in place. -/
theorem slice_array {before after template front : List Char} (ht : t = before.reverse ++ after)
    (ha : RepeatBlock.splitArray? before = some (template, front)) :
    slice t 0 (utf8Length front) = pure front.reverse
      ∧ slice t (utf8Length front) (utf8Length front + (utf8Length template - 1) + 1)
        = pure template := by
  obtain ⟨blanks, hbefore⟩ := RepeatBlock.splitArray?_append ha
  obtain ⟨u, htemplate⟩ := RepeatBlock.splitArray?_brackets ha
  have hstop : utf8Length front + (utf8Length template - 1) + 1
      = utf8Length front + utf8Length template := by
    rw [htemplate, Nat.add_assoc, Nat.sub_add_cancel (utf8Length_cons_pos _ _)]
  have hlength : utf8Length front = 0 + utf8Length front.reverse := by
    rw [utf8Length_reverse, Nat.zero_add]
  have hat : At t 0 (front.reverse ++ (template ++ (blanks ++ after))) := by
    rw [ht, hbefore, List.append_assoc, List.append_assoc]
    exact At.start _
  rw [hstop, hlength]
  exact ⟨hat.slice, hat.append.slice⟩

/-! ## Extraction -/

theorem utf8Length_mark (ds : List Char) : utf8Length (RepeatBlock.mark ds) = markLength ds := by
  rw [RepeatBlock.mark, utf8Length_append, utf8Length_append, markLength]
  rfl

/-- The first mark is at a place of the text. -/
theorem firstMark?_eq (t before : List Char) : firstMark? (utf8Length before) t
    = (RepeatBlock.firstMark? before t).map fun (before, ds, _) =>
      ⟨utf8Length before, ds, utf8Length before + markLength ds⟩ := by
  induction t generalizing before with
  | nil => rfl
  | cons c t ih =>
    rw [firstMark?, RepeatBlock.firstMark?]
    cases RepeatBlock.splitMark? (c :: t) with
    | some r => rfl
    | none =>
      dsimp only
      rw [← ih (c :: before), utf8Length, Nat.add_comm]

theorem eq_of_firstMark? {before ds rest : List Char}
    (h : RepeatBlock.firstMark? [] t = some (before, ds, rest)) :
    t = before.reverse ++ (RepeatBlock.mark ds ++ rest) := by
  obtain ⟨u, c, v, rfl, rfl, -, hmark⟩ := RepeatBlock.firstMark?_eq_some h
  rw [List.append_nil, List.reverse_reverse, ← (RepeatBlock.splitMark?_eq_some_iff.1 hmark).1]

/-- A block that is replaced takes the sign of its mark along. -/
theorem count_of_replaceFirst? {t' : List Char} {p p' : Placeholders}
    (h : RepeatBlock.replaceFirst? t p = some (t', p')) : t'.count '@' < t.count '@' := by
  obtain ⟨⟨before, ds, rest⟩, hfirst, h⟩ := Option.bind_eq_some_iff.1 h
  obtain ⟨count, -, h⟩ := Option.bind_eq_some_iff.1 h
  obtain ⟨⟨template, front⟩, ha, heq⟩ := Option.map_eq_some_iff.1 h
  cases heq
  obtain ⟨blanks, hbefore⟩ := RepeatBlock.splitArray?_append ha
  have hplaceholder : '@' ∉ (Placeholder.ofBlock (Placeholder.blockName p.nextBlock)).toList :=
    fun hc => absurd (Placeholder.isNameChar_of_mem_ofBlock hc) (by decide)
  have hquoted : List.count '@' ('"' :: (Placeholder.ofBlock
      (Placeholder.blockName p.nextBlock)).toList ++ ['"']) = 0 := by
    rw [List.cons_append, List.count_cons_of_ne (by decide), List.count_append,
      List.count_eq_zero.2 hplaceholder]
    rfl
  have hmark : 0 < (RepeatBlock.mark ds).count '@' := List.count_pos_iff.2 List.mem_cons_self
  rw [eq_of_firstMark? hfirst, hbefore, List.count_append, List.count_append, hquoted]
  simp only [List.count_append, List.count_reverse]
  omega

/-- Either the first block is cut out and replaced, or nothing is. -/
theorem extractFrom_step (n : Nat) (t : List Char) (p : Placeholders) : extractFrom (n + 1) t p =
    match RepeatBlock.replaceFirst? t p with
    | some (t, p) => extractFrom n t p
    | none => pure (t, p) := by
  rw [extractFrom, show firstMark? 0 t = _ from firstMark?_eq t [], RepeatBlock.replaceFirst?]
  cases hfirst : RepeatBlock.firstMark? [] t with
  | none => rfl
  | some r =>
    obtain ⟨before, ds, rest⟩ := r
    have ht := eq_of_firstMark? hfirst
    dsimp only [Option.map_some, Option.bind_some]
    cases RepeatBlock.count? ds with
    | none => rfl
    | some count =>
      have harray : arrayBefore t (utf8Length before) = _ :=
        ht ▸ arrayBefore_eq before (RepeatBlock.mark ds ++ rest)
      dsimp only [Option.bind_some]
      rw [harray, pure_bind]
      cases ha : RepeatBlock.splitArray? before with
      | none => rfl
      | some r =>
        obtain ⟨template, front⟩ := r
        obtain ⟨hfront, htemplate⟩ := slice_array ht ha
        have hrest : At t (utf8Length before + markLength ds) rest := by
          rw [← utf8Length_mark]
          exact At.append ⟨before.reverse, ht, utf8Length_reverse before⟩
        dsimp only [Option.map_some]
        rw [htemplate, pure_bind, hfront, pure_bind, hrest.remaining, pure_bind]

/-- The blocks of a text are replaced, one after the other; each takes a sign along. -/
theorem extractFrom_eq {n : Nat} {t : List Char} (hn : t.count '@' < n) (p : Placeholders) :
    extractFrom n t p = pure (RepeatBlock.extract t p) := by
  induction n generalizing t p with
  | zero => cases hn
  | succ n ih =>
    rw [extractFrom_step, RepeatBlock.extract_eq_replaceFirst?]
    cases h : RepeatBlock.replaceFirst? t p with
    | none => rfl
    | some r => exact ih (Nat.lt_of_lt_of_le (count_of_replaceFirst? h) (Nat.le_of_lt_succ hn)) r.2

theorem extract_eq (t : List Char) (p : Placeholders) :
    extract t p = pure (RepeatBlock.extract t p) :=
  extractFrom_eq (Nat.lt_succ_of_le List.count_le_length) p

end JsonTemplate.Bytewise
