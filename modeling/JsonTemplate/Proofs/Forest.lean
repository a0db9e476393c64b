import Mathlib.Algebra.Ring.Nat
import Mathlib.Data.List.Count
import Mathlib.Data.List.Infix
import JsonTemplate.Proofs.Excerpt

/-!
# The forest of blocks

The blocks of a text are recorded from the inside out: the placeholder of a block stands once, in
what is left of the text or in the text of a block with a greater number. Written back for their
placeholders, the last one first, the blocks give the text again (`RepeatBlock.extract_forest`). A
text that spells the beginning of a placeholder itself is another matter: there the two cannot be
told apart.
-/

namespace JsonTemplate

open Text

/-! ## Occurrences -/

/-- How often a word occurs in a text. -/
def occurrences (w t : List Char) : Nat :=
  t.tails.countP w.isPrefixOf

/-- Writes `r` for each occurrence of a word, from left to right; the first `passed` characters
belong to an occurrence already. -/
def replaceFrom (w r : List Char) : (passed : Nat) → List Char → List Char
  | _, [] => []
  | passed + 1, _ :: t => replaceFrom w r passed t
  | 0, c :: t =>
    if w.isPrefixOf (c :: t) then r ++ replaceFrom w r (w.length - 1) t
    else c :: replaceFrom w r 0 t

def replaceAll (w r t : List Char) : List Char :=
  replaceFrom w r 0 t

section Tails

variable {α : Type} {f : List α → Bool} {c : α}

/-- What is seen from a place does not reach over a separator. -/
theorem countP_tails_append_cons (hf : ∀ s t, f (s ++ c :: t) = f s) : ∀ a b : List α,
    (a ++ c :: b).tails.countP f = a.tails.countP f + b.tails.countP f
  | [], b => by
    have := hf [] b
    rw [List.nil_append] at this
    rw [List.nil_append, List.tails_cons, List.countP_cons, this, Nat.add_comm]
    simp [List.countP_cons]
  | d :: a, b => by
    have hd : f (d :: (a ++ c :: b)) = f (d :: a) := hf (d :: a) b
    rw [List.cons_append, List.tails_cons, List.countP_cons, countP_tails_append_cons hf a b,
      List.tails_cons, List.countP_cons, hd]
    omega

theorem countP_tails_append_le (hnil : f [] = false) (hf : ∀ s t, f s = true → f (s ++ t) = true) :
    ∀ a b : List α, a.tails.countP f + b.tails.countP f ≤ (a ++ b).tails.countP f
  | [], b => by simp [hnil]
  | d :: a, b => by
    have ih := countP_tails_append_le hnil hf a b
    have hd := hf (d :: a) b
    rw [List.cons_append] at hd
    rw [List.cons_append, List.tails_cons, List.countP_cons, List.tails_cons, List.countP_cons]
    split
    · rw [if_pos (hd ‹_›)]
      omega
    · omega

end Tails

theorem occurrences_eq_zero {w t : List Char} : occurrences w t = 0 ↔ ¬ w <:+: t := by
  rw [occurrences, List.countP_eq_zero, List.infix_iff_prefix_suffix]
  simp only [List.mem_tails, List.isPrefixOf_iff_prefix, not_exists, not_and]
  exact ⟨fun h u hw hu => h u hu hw, fun h u hu hw => h u hw hu⟩

theorem occurrences_cons (w : List Char) (c : Char) (t : List Char) :
    occurrences w (c :: t) = occurrences w t + if w.isPrefixOf (c :: t) then 1 else 0 := by
  rw [occurrences, List.tails_cons, List.countP_cons]
  rfl

theorem prefix_append_cons_iff {c : Char} {w : List Char} (hc : c ∉ w) (s t : List Char) :
    w <+: s ++ c :: t ↔ w <+: s := by
  constructor
  · rintro ⟨r, hr⟩
    obtain ⟨v, rfl⟩ := RepeatBlock.eq_append_of_append_eq hc hr.symm
    exact List.prefix_append w v
  · exact fun h => h.trans (List.prefix_append s _)

theorem occurrences_append_cons {c : Char} {w : List Char} (hc : c ∉ w) (s t : List Char) :
    occurrences w (s ++ c :: t) = occurrences w s + occurrences w t :=
  countP_tails_append_cons (fun s t => Bool.eq_iff_iff.2 (by
    rw [List.isPrefixOf_iff_prefix, List.isPrefixOf_iff_prefix, prefix_append_cons_iff hc])) s t

/-- Two texts agree up to the first occurrence of a character. -/
theorem append_cons_inj {c : Char} {s s' t t' : List Char} (hs : c ∉ s) (hs' : c ∉ s')
    (h : s ++ c :: t = s' ++ c :: t') : s = s' ∧ t = t' := by
  obtain ⟨v, rfl⟩ := RepeatBlock.eq_append_of_append_eq hs' h
  rw [List.append_assoc, List.append_cancel_left_eq] at h
  cases v with
  | nil => exact ⟨List.append_nil s', (List.cons.inj h).2⟩
  | cons d v =>
    rw [(List.cons.inj h).1] at hs
    exact absurd (by simp) hs

section Replacing

variable (w r : List Char)

theorem replaceFrom_passed : ∀ (s t : List Char),
    replaceFrom w r s.length (s ++ t) = replaceFrom w r 0 t
  | [], _ => rfl
  | _ :: s, t => replaceFrom_passed s t

variable {w}

/-- An occurrence at the start is replaced. -/
theorem replaceAll_append (hw : w ≠ []) (t : List Char) :
    replaceAll w r (w ++ t) = r ++ replaceAll w r t := by
  obtain ⟨c, u, rfl⟩ := List.exists_cons_of_ne_nil hw
  have hp : (c :: u).isPrefixOf (c :: (u ++ t)) = true :=
    List.isPrefixOf_iff_prefix.2 (List.prefix_append (c :: u) t)
  rw [replaceAll, List.cons_append, replaceFrom, if_pos hp]
  exact congrArg (r ++ ·) (replaceFrom_passed (c :: u) r u t)

theorem replaceAll_cons {c : Char} {t : List Char} (h : ¬ w <+: c :: t) :
    replaceAll w r (c :: t) = c :: replaceAll w r t := by
  rw [replaceAll, replaceFrom, if_neg (by rwa [List.isPrefixOf_iff_prefix])]
  rfl

/-- Where the word cannot begin, nothing is replaced. -/
theorem replaceAll_of_notMem {c : Char} {u : List Char} (t : List Char) :
    ∀ {s : List Char}, c ∉ s → replaceAll (c :: u) r (s ++ t) = s ++ replaceAll (c :: u) r t
  | [], _ => rfl
  | d :: s, h => by
    rw [List.mem_cons, not_or] at h
    rw [List.cons_append, replaceAll_cons r, replaceAll_of_notMem t h.2, List.cons_append]
    exact fun hp => h.1 (List.cons_prefix_cons.1 hp).1

end Replacing

/-! ## Placeholders of blocks -/

namespace Placeholder

/-- The placeholder of the block with the given number. -/
def word (n : Nat) : List Char :=
  (ofBlock (blockName n)).toList

/-- How the placeholders of blocks begin. -/
def wordStart : List Char :=
  "__REPEAT_ARRAY_".toList

theorem word_eq (n : Nat) : word n = wordStart ++ natText n ++ ['_', '_'] := by
  rw [word, toList_ofBlock, toList_blockName, ← List.append_assoc]
  rfl

theorem wordStart_prefix_word (n : Nat) : wordStart <+: word n := by
  rw [word_eq, List.append_assoc]
  exact List.prefix_append _ _

theorem quote_notMem_word (n : Nat) : '"' ∉ word n := fun h =>
  absurd (isNameChar_of_mem_ofBlock h) (by decide)

/-- A placeholder is not the beginning of another one. -/
theorem eq_of_word_isPrefix {m n : Nat} (h : word m <+: word n) : m = n := by
  obtain ⟨r, hr⟩ := h
  rw [word_eq, word_eq, List.append_assoc, List.append_assoc, List.append_assoc,
    List.append_cancel_left_eq] at hr
  exact natText_injective (append_cons_inj (notMem_natText rfl m) (notMem_natText rfl n) hr).1

theorem tail_word (n : Nat) :
    (word n).tail = "_RE".toList ++ 'P' :: ("EAT_ARRAY_".toList ++ natText n ++ ['_', '_']) := by
  rw [word_eq]
  rfl

/-- No placeholder begins within another one. -/
theorem not_word_infix_tail (m n : Nat) : ¬ word m <:+: (word n).tail := by
  rintro ⟨x, y, h⟩
  have hword : word m
      = "__RE".toList ++ 'P' :: ("EAT_ARRAY_".toList ++ natText m ++ ['_', '_']) := by
    rw [word_eq]
    rfl
  have hrest : 'P' ∉ "EAT_ARRAY_".toList ++ natText n ++ ['_', '_'] := by
    rw [List.mem_append, List.mem_append, not_or, not_or]
    exact ⟨⟨by decide, notMem_natText rfl n⟩, by decide⟩
  rw [tail_word, hword, List.append_assoc, List.append_assoc, List.cons_append,
    ← List.append_assoc] at h
  have hstart := ((List.append_cons_inj_of_notMem (by decide) hrest).1 h.symm).1
  have hlength := congrArg List.length hstart
  rw [List.length_append] at hlength
  exact absurd hlength (by simp)

theorem occurrences_word (m n : Nat) :
    occurrences (word m) (word n) = if n = m then 1 else 0 := by
  obtain ⟨u, hu⟩ : ∃ u, word n = '_' :: u := ⟨_, word_eq n⟩
  have htail := not_word_infix_tail m n
  rw [hu, List.tail_cons] at htail
  have hstarts : (word m).isPrefixOf (word n) = true ↔ n = m := by
    rw [List.isPrefixOf_iff_prefix]
    exact ⟨fun h => (eq_of_word_isPrefix h).symm, fun h => h ▸ List.prefix_rfl⟩
  rw [hu] at hstarts ⊢
  rw [occurrences_cons, occurrences_eq_zero.2 htail, Nat.zero_add]
  simp only [hstarts]

end Placeholder

/-! ## Placeholders among bits -/

namespace Bit

open Placeholder

/-- The numbers of the blocks among bits. -/
def blocks : List Bit → List Nat
  | [] => []
  | .char _ :: bits => blocks bits
  | .block n :: bits => n :: blocks bits

@[simp] theorem blocks_append : ∀ xs ys : List Bit, blocks (xs ++ ys) = blocks xs ++ blocks ys
  | [], _ => rfl
  | .char _ :: xs, ys => blocks_append xs ys
  | .block n :: xs, ys => congrArg (n :: ·) (blocks_append xs ys)

@[simp] theorem blocks_map_char : ∀ t : List Char, blocks (t.map .char) = []
  | [] => rfl
  | _ :: t => blocks_map_char t

theorem mem_blocks {n : Nat} : ∀ {bits : List Bit}, n ∈ blocks bits ↔ .block n ∈ bits
  | [] => by simp [blocks]
  | .char _ :: bits => by simp [blocks, @mem_blocks n bits]
  | .block _ :: bits => by simp [blocks, @mem_blocks n bits]

/-- The characters among the bits nowhere spell the beginning of a placeholder. -/
def Unnamed (bits : List Bit) : Prop :=
  ¬ wordStart.map .char <:+: bits

theorem Unnamed.part {xs ys : List Bit} (h : Unnamed ys) (hx : xs <:+: ys) : Unnamed xs :=
  fun hw => h (hw.trans hx)

theorem unnamed_map_char {t : List Char} : Unnamed (t.map .char) ↔ ¬ wordStart <:+: t := by
  have hinj : Function.Injective Bit.char := fun c d h => Bit.char.inj h
  rw [Unnamed, List.infix_map_iff]
  refine not_congr ⟨?_, fun h => ⟨wordStart, h, rfl⟩⟩
  rintro ⟨u, hu, h⟩
  rwa [List.map_injective_iff.2 hinj h]

/-- A block keeps what is before it from what is after it. -/
theorem Unnamed.insert {xs ys : List Bit} (n : Nat) (hx : Unnamed xs) (hy : Unnamed ys) :
    Unnamed (xs ++ .block n :: ys) := by
  intro h
  rcases infix_or_of_notMem (by simp) h with h | h
  · exact hx h
  · exact hy h

variable (m : Nat)

/-- Where the characters spell no placeholder, the occurrences of one are the blocks of its
number. -/
theorem occurrences_textFrom (n : Nat) : ∀ (bits : List Bit) (u : List Char),
    Unnamed (u.map .char ++ bits) →
      occurrences (word n) (u ++ textFrom m bits) = ((blocks bits).map (m + ·)).count n
  | [], u, h => by
    rw [textFrom_nil, List.append_nil, occurrences_eq_zero.2]
    · rfl
    · rw [List.append_nil, unnamed_map_char] at h
      exact fun hw => h ((wordStart_prefix_word n).isInfix.trans hw)
  | .char c :: bits, u, h => by
    have ih := occurrences_textFrom n bits (u ++ [c]) (by simpa using h)
    rw [List.append_assoc] at ih
    exact ih
  | .block k :: bits, u, h => by
    have hu : Unnamed (u.map .char) := h.part (List.prefix_append _ _).isInfix
    have hbits : Unnamed bits :=
      h.part ((List.suffix_cons _ _).trans (List.suffix_append _ _)).isInfix
    rw [unnamed_map_char] at hu
    have ih := occurrences_textFrom n bits [] hbits
    have htext : u ++ textFrom m (.block k :: bits)
        = u ++ '"' :: (word (m + k) ++ '"' :: textFrom m bits) := by
      simp [text, word]
    rw [htext, occurrences_append_cons (quote_notMem_word n),
      occurrences_append_cons (quote_notMem_word n), occurrences_word,
      occurrences_eq_zero.2 fun hw => hu ((wordStart_prefix_word n).isInfix.trans hw)]
    rw [List.nil_append] at ih
    rw [ih, blocks, List.map_cons, List.count_cons]
    simp only [beq_iff_eq]
    omega

theorem occurrences_textFrom_add {bits : List Bit} (h : Unnamed bits) (k : Nat) :
    occurrences (word (m + k)) (textFrom m bits) = (blocks bits).count k :=
  (occurrences_textFrom m (m + k) bits [] h).trans
    (List.count_map_of_injective _ _ (fun _ _ => Nat.add_left_cancel) k)

theorem exists_of_word_infix {bits : List Bit} (h : Unnamed bits) {n : Nat}
    (hn : word n <:+: textFrom m bits) : ∃ k ∈ blocks bits, m + k = n := by
  have hcount := occurrences_textFrom m n bits [] h
  have hpos : 0 < occurrences (word n) (textFrom m bits) :=
    Nat.pos_of_ne_zero fun hzero => occurrences_eq_zero.1 hzero hn
  rw [List.nil_append] at hcount
  rw [hcount] at hpos
  exact List.mem_map.1 (List.count_pos_iff.1 hpos)

/-- A text without quotes at the head of the text of bits is made of characters. -/
theorem map_char_isPrefix {u : List Char} (hu : '"' ∉ u) : ∀ {bits : List Bit},
    u <+: textFrom m bits → u.map .char <+: bits := by
  induction u with
  | nil => exact fun _ => List.nil_prefix
  | cons c u ih =>
    rw [List.mem_cons, not_or] at hu
    rintro (_ | ⟨d | n, bits⟩) h
    · simp at h
    · rw [textFrom_char, List.cons_prefix_cons] at h
      rw [h.1, List.map_cons, List.cons_prefix_cons]
      exact ⟨rfl, ih hu.2 h.2⟩
    · rw [textFrom_block, text, List.cons_append, List.cons_append, List.cons_prefix_cons] at h
      exact absurd h.1.symm hu.1

/-- No quoted placeholder begins at a character of the bits. -/
theorem not_text_isPrefix {n : Nat} {bits : List Bit} (h : Unnamed bits) (c : Char) :
    ¬ text (.block n) <+: c :: textFrom m bits := by
  rw [text, List.cons_append, List.cons_prefix_cons, ← word]
  rintro ⟨-, hp⟩
  exact h (((wordStart_prefix_word n).map _).trans
    (map_char_isPrefix m (quote_notMem_word n) ((List.prefix_append _ _).trans hp))).isInfix

/-- A text that is written for a placeholder leaves the bits before its block alone. -/
theorem replaceAll_textFrom_append {n : Nat} (r : List Char) {ys : List Bit} : ∀ {xs : List Bit},
    Unnamed (xs ++ ys) → n ∉ blocks xs →
      replaceAll (text (.block (m + n))) r (textFrom m xs ++ textFrom m ys)
        = textFrom m xs ++ replaceAll (text (.block (m + n))) r (textFrom m ys)
  | [], _, _ => rfl
  | .char c :: xs, h, hn => by
    have htail : Unnamed (xs ++ ys) := h.part (List.suffix_cons _ _).isInfix
    rw [textFrom_char, List.cons_append, replaceAll_cons r,
      replaceAll_textFrom_append r htail hn, List.cons_append]
    rw [← textFrom_append]
    exact not_text_isPrefix m htail c
  | .block k :: xs, h, hn => by
    have htail : Unnamed (xs ++ ys) := h.part (List.suffix_cons _ _).isInfix
    rw [blocks, List.mem_cons, not_or] at hn
    have htext : textFrom m (.block k :: xs) ++ textFrom m ys
        = '"' :: (word (m + k) ++ '"' :: (textFrom m xs ++ textFrom m ys)) := by
      simp [text, word]
    rw [htext, replaceAll_cons r, text, List.cons_append, ← word,
      replaceAll_of_notMem r _ (quote_notMem_word _), replaceAll_cons r]
    · have ih := replaceAll_textFrom_append r htail hn.2
      rw [text, List.cons_append, ← word] at ih
      rw [ih]
      simp [text, word]
    · rw [← textFrom_append]
      exact not_text_isPrefix m htail '"'
    · rw [text, List.cons_append, List.cons_prefix_cons, ← word]
      rintro ⟨-, hp⟩
      have := (List.prefix_append _ _).trans hp
      rw [prefix_append_cons_iff (quote_notMem_word _)] at this
      have := eq_of_word_isPrefix this
      omega

/-- A text that is written for the one placeholder of a block stands where the block stood. -/
theorem replaceAll_textFrom {n : Nat} (r : List Char) {xs ys : List Bit} (hx : n ∉ blocks xs)
    (hy : n ∉ blocks ys) (h : Unnamed (xs ++ .block n :: ys)) :
    replaceAll (text (.block (m + n))) r (textFrom m (xs ++ .block n :: ys))
      = textFrom m xs ++ (r ++ textFrom m ys) := by
  have hys : Unnamed (ys ++ []) := by
    rw [List.append_nil]
    exact h.part ((List.suffix_cons _ _).trans (List.suffix_append _ _)).isInfix
  have hne : text (.block (m + n)) ≠ [] := List.cons_ne_nil _ _
  have htail := replaceAll_textFrom_append m r hys hy
  rw [textFrom_nil, List.append_nil] at htail
  rw [textFrom_append, replaceAll_textFrom_append m r h hx, textFrom_block,
    replaceAll_append r hne, htail]
  simp [replaceAll, replaceFrom]

end Bit

/-! ## Marks -/

namespace RepeatBlock

/-- How many repeat marks a text has. -/
def marks (t : List Char) : Nat :=
  t.tails.countP fun u => (splitMark? u).isSome

theorem splitMark?_append_quote (s t : List Char) :
    (splitMark? (s ++ '"' :: t)).isSome = (splitMark? s).isSome := by
  cases hs : splitMark? s with
  | none => rw [splitMark?_eq_none_of_outside outsideMarks_quote hs]
  | some r => rw [splitMark?_append hs]; rfl

theorem marks_append_quote (s t : List Char) : marks (s ++ '"' :: t) = marks s + marks t :=
  countP_tails_append_cons splitMark?_append_quote s t

theorem marks_append_le (s t : List Char) : marks s + marks t ≤ marks (s ++ t) := by
  refine countP_tails_append_le rfl (fun s t h => ?_) s t
  obtain ⟨r, hr⟩ := Option.isSome_iff_exists.1 h
  rw [splitMark?_append hr]
  rfl

theorem marks_cons (c : Char) (t : List Char) :
    marks (c :: t) = marks t + if (splitMark? (c :: t)).isSome then 1 else 0 := by
  rw [marks, List.tails_cons, List.countP_cons]
  rfl

theorem marks_eq_zero_iff : ∀ {t : List Char}, marks t = 0 ↔ Markless t
  | [] => by simp [marks, Markless, MarklessBefore, splitMark?, Text.afterStart?, markStart_eq]
  | c :: t => by
    have ih := marks_eq_zero_iff (t := t)
    rw [Markless] at ih
    rw [marks_cons, Markless, MarklessBefore, List.append_nil, ← ih]
    cases splitMark? (c :: t) <;> simp

theorem marks_eq_zero {t : List Char} (h : '@' ∉ t) : marks t = 0 :=
  marks_eq_zero_iff.2 (marklessBefore_of_notMem [] h)

theorem one_le_marks_mark {ds : List Char} {n : Nat} (h : count? ds = some n) :
    1 ≤ marks (mark ds) := by
  have hmark := splitMark?_mark h []
  rw [List.append_nil] at hmark
  refine List.countP_pos_iff.2 ⟨mark ds, (List.mem_tails _ _).2 List.suffix_rfl, ?_⟩
  rw [hmark]
  rfl

/-! ## Cuts -/

/-- A block with the blanks and the digits that followed its array. -/
structure Cut where
  block : RepeatBlock
  blanks : List Char
  digits : List Char

/-- What a cut took out of the text. -/
def Cut.text (c : Cut) : List Char :=
  c.block.template.toList ++ c.blanks ++ mark c.digits

/-- Writes cuts back for their placeholders, of which the first one has the number `n`; the last
one comes first. -/
def putBack (t : List Char) : (n : Nat) → List Cut → List Char
  | _, [] => t
  | n, c :: cuts => replaceAll (Bit.text (.block n)) c.text (putBack t (n + 1) cuts)

theorem putBack_append (t : List Char) (c : Cut) : ∀ (cuts : List Cut) (n : Nat),
    putBack t n (cuts ++ [c])
      = putBack (replaceAll (Bit.text (.block (n + cuts.length))) c.text t) n cuts
  | [], _ => rfl
  | d :: cuts, n => by
    have ih := putBack_append t c cuts (n + 1)
    rw [List.cons_append, putBack, ih, putBack, List.length_cons, Nat.add_assoc,
      Nat.add_comm 1 cuts.length]

/-- The cuts lead from a text to what is left of it, with the blocks numbered from `m` on. -/
structure Forest (t : List Char) (m : Nat) (left : List Char) (cuts : List Cut) : Prop where
  few : cuts.length ≤ marks t
  /-- No mark is left in a block, and reading it again records nothing. -/
  settled : ∀ c ∈ cuts, marks c.block.template.toList = 0
    ∧ ∀ p, extract c.block.template.toList p = (c.block.template.toList, p)
  /-- Each placeholder stands in one place. -/
  once : ∀ i < cuts.length, occurrences (Placeholder.word (m + i)) left
    + (cuts.map fun c => occurrences (Placeholder.word (m + i)) c.block.template.toList).sum = 1
  /-- The blocks within a block come before it. -/
  inward : ∀ i c, cuts[i]? = some c → ∀ n, Placeholder.word n <:+: c.block.template.toList →
    m ≤ n ∧ n < m + i
  blanks : ∀ c ∈ cuts, ∀ d ∈ c.blanks, isAsciiBlank d = true
  digits : ∀ c ∈ cuts, count? c.digits = some c.block.count
  restores : putBack left m cuts = t

end RepeatBlock

open RepeatBlock Bit Placeholder

def Cutting.cut (m : Nat) (c : Cutting) : Cut :=
  ⟨c.block m, c.blanks, c.digits⟩

theorem Cutting.text_cut (m : Nat) (c : Cutting) :
    (c.cut m).text = textFrom m c.template ++ c.blanks ++ mark c.digits := by
  rw [cut, Cut.text, block, String.toList_ofList]

namespace Excerpt

/-- What holds of the bits and the cuttings at every cut. -/
structure Grown (t : List Char) (m : Nat) (bits : List Bit) (cuttings : List Cutting) : Prop where
  few : marks (textFrom m bits) + cuttings.length ≤ marks t
  once : ∀ k, (blocks bits).count k + (cuttings.map fun c => (blocks c.template).count k).sum
    = if k < cuttings.length then 1 else 0
  unnamed : Unnamed bits
  templates : ∀ c ∈ cuttings, Unnamed c.template
  blanks : ∀ c ∈ cuttings, ∀ d ∈ c.blanks, isAsciiBlank d = true
  digits : ∀ c ∈ cuttings, count? c.digits = some c.count
  restores : putBack (textFrom m bits) m (cuttings.map (Cutting.cut m)) = t

variable {t : List Char} {m : Nat}

theorem Grown.lt {bits : List Bit} {cuttings : List Cutting} (h : Grown t m bits cuttings) {k : Nat}
    (hk : k ∈ blocks bits) : k < cuttings.length := by
  have hpos := List.count_pos_iff.2 hk
  have honce := h.once k
  split at honce
  · assumption
  · omega

theorem textFrom_cut (m : Nat) (front : List Bit) (c : Cutting) (rest : List Char) :
    textFrom m (front ++ (c.template ++ (c.blanks ++ (mark c.digits ++ rest)).map .char))
      = textFrom m front ++ ((c.cut m).text ++ rest) := by
  rw [textFrom_append, textFrom_append, textFrom_map_char, c.text_cut]
  simp

/-- A cut takes a mark away. -/
theorem marks_cut_le (m n : Nat) (front : List Bit) {c : Cutting} (rest : List Char)
    (hcount : count? c.digits = some c.count) :
    marks (textFrom m (front ++ .block n :: rest.map .char)) + 1
      ≤ marks (textFrom m front ++ ((c.cut m).text ++ rest)) := by
  have hword : marks (word (m + n)) = 0 :=
    marks_eq_zero fun hc => absurd (isNameChar_of_mem_ofBlock hc) (by decide)
  have htext : textFrom m (front ++ .block n :: rest.map .char)
      = textFrom m front ++ '"' :: (word (m + n) ++ '"' :: rest) := by
    simp [text, word]
  have hmark := one_le_marks_mark hcount
  have h₁ := marks_append_le (textFrom m c.template ++ c.blanks) (mark c.digits)
  have h₂ := marks_append_le (c.cut m).text rest
  have h₃ := marks_append_le (textFrom m front) ((c.cut m).text ++ rest)
  rw [← c.text_cut] at h₁
  rw [htext, marks_append_quote, marks_append_quote, hword]
  omega

/-- A cut takes a mark away, and its block is new. -/
theorem Grown.step {front : List Bit} {rest : List Char} {cuttings : List Cutting} {c : Cutting}
    (h : Grown t m
      (front ++ (c.template ++ (c.blanks ++ (mark c.digits ++ rest)).map .char)) cuttings)
    (hblanks : ∀ d ∈ c.blanks, isAsciiBlank d = true) (hcount : count? c.digits = some c.count) :
    Grown t m (front ++ .block cuttings.length :: rest.map .char) (cuttings ++ [c]) := by
  have hfront : Unnamed front := h.unnamed.part (List.prefix_append _ _).isInfix
  have htemplate : Unnamed c.template :=
    h.unnamed.part ((List.prefix_append _ _).isInfix.trans (List.suffix_append _ _).isInfix)
  have hrest : Unnamed (rest.map .char) := by
    refine h.unnamed.part (List.IsSuffix.isInfix ?_)
    rw [List.map_append, List.map_append, ← List.append_assoc, ← List.append_assoc,
      ← List.append_assoc]
    exact List.suffix_append _ _
  have hnew : ∀ k ∈ blocks front ++ blocks c.template, k < cuttings.length := fun k hk =>
    h.lt (by simpa using hk)
  have hlast : cuttings.length ∉ blocks front ++ blocks c.template := fun hk =>
    absurd (hnew _ hk) (Nat.lt_irrefl _)
  refine ⟨?_, fun k => ?_, hfront.insert _ hrest,
    List.forall_mem_append.2 ⟨h.templates, by simpa using htemplate⟩,
    List.forall_mem_append.2 ⟨h.blanks, by simpa using hblanks⟩,
    List.forall_mem_append.2 ⟨h.digits, by simpa using hcount⟩, ?_⟩
  · have hfew := h.few
    have hcut := marks_cut_le m cuttings.length front rest hcount
    rw [textFrom_cut] at hfew
    rw [List.length_append, List.length_singleton]
    omega
  · have honce := h.once k
    simp only [blocks_append, blocks_map_char, List.append_nil, List.count_append] at honce
    simp only [blocks_append, blocks_map_char, blocks, List.count_append, List.count_cons,
      List.count_nil, List.map_append, List.sum_append, List.length_append, List.map_singleton,
      List.sum_singleton, List.length_singleton, beq_iff_eq]
    split_ifs at honce ⊢ <;> omega
  · rw [List.mem_append, not_or] at hlast
    have hrestores := h.restores
    rw [textFrom_cut] at hrestores
    rw [List.map_append, List.map_singleton, putBack_append, List.length_map,
      replaceAll_textFrom m _ hlast.1 (by simp) (hfront.insert _ hrest), textFrom_map_char]
    exact hrestores

theorem grown_ofText (h : ¬ wordStart <:+: t) (m : Nat) :
    Grown t m (ofText t).left (ofText t).cuttings := by
  have hstart : Grown t m (t.map .char) [] := by
    constructor <;> simp [unnamed_map_char, h, putBack]
  exact ofText_induction (P := Grown t m) hstart
    fun front rest cuttings c hgrown _ hblanks hcount => hgrown.step hblanks hcount

/-- The cuttings of a text are a forest. -/
theorem forest_ofText (h : ¬ wordStart <:+: t) (m : Nat) :
    Forest t m (textFrom m (ofText t).left) ((ofText t).cuttings.map (Cutting.cut m)) := by
  have hgrown := grown_ofText h m
  have htemplate : ∀ c : Cutting, (c.cut m).block.template.toList = textFrom m c.template :=
    fun c => String.toList_ofList
  refine ⟨?_, ?_, fun i hi => ?_, fun i c hc n hn => ?_, ?_, ?_, hgrown.restores⟩
  · have := hgrown.few
    rw [List.length_map]
    omega
  · rw [List.forall_mem_map]
    intro c hc
    have hmarkless := markless_of_mem t m hc
    rw [htemplate]
    exact ⟨marks_eq_zero_iff.2 hmarkless, extract_of_markless hmarkless⟩
  · rw [List.length_map] at hi
    have honce := hgrown.once i
    rw [if_pos hi] at honce
    rw [occurrences_textFrom_add m hgrown.unnamed, List.map_map, ← honce]
    congr 2
    refine List.map_congr_left fun c hc => ?_
    rw [Function.comp_apply, htemplate, occurrences_textFrom_add m (hgrown.templates c hc)]
  · rw [List.getElem?_map] at hc
    obtain ⟨c, hi, rfl⟩ := Option.map_eq_some_iff.1 hc
    rw [htemplate] at hn
    obtain ⟨k, hk, rfl⟩ := exists_of_word_infix m (hgrown.templates c (List.mem_of_getElem? hi)) hn
    have := (nested_ofText t).template i c hi k (mem_blocks.1 hk)
    omega
  · exact List.forall_mem_map.2 hgrown.blanks
  · exact List.forall_mem_map.2 hgrown.digits

end Excerpt

/-- The blocks of a text that spells no placeholder of a block are a forest: all of it is in them
and in what is left. -/
theorem RepeatBlock.extract_forest {t : List Char} (h : ¬ wordStart <:+: t) (p : Placeholders) :
    ∃ cuts : List Cut, Forest t p.nextBlock (extract t p).1 cuts
      ∧ (extract t p).2 = { p with
        blocks := p.blocks ++ cuts.mapIdx fun i c => (blockName (p.nextBlock + i), c.block)
        nextBlock := p.nextBlock + cuts.length } := by
  refine ⟨(Excerpt.ofText t).cuttings.map (Cutting.cut p.nextBlock), ?_, ?_⟩
  · rw [Excerpt.extract_eq]
    exact Excerpt.forest_ofText h p.nextBlock
  · have hblocks : (((Excerpt.ofText t).cuttings.map (Cutting.cut p.nextBlock)).mapIdx fun i c =>
        (blockName (p.nextBlock + i), c.block)) = (Excerpt.ofText t).cuttings.mapIdx fun i c =>
          (blockName (p.nextBlock + i), c.block p.nextBlock) :=
      (List.mapIdx_eq_iff.2 fun i => by simp [Cutting.cut, Function.comp_def])
    rw [Excerpt.extract_eq, hblocks, List.length_map, Placeholders.recordAll]

/-- Two cuts, of which one is all that is in the block of the other. -/
theorem RepeatBlock.putBack_pair {n : Nat} {inner outer : Cut}
    (houter : outer.block.template.toList = ['['] ++ (Bit.text (.block n) ++ [']']))
    (hblanks : ∀ d ∈ outer.blanks, isAsciiBlank d = true)
    (hdigits : count? outer.digits = some outer.block.count) :
    putBack (Bit.text (.block (n + 1))) n [inner, outer]
      = ['['] ++ (inner.text ++ ([']'] ++ (outer.blanks ++ mark outer.digits))) := by
  have hne : ∀ n, Bit.text (.block n) ≠ [] := fun _ => List.cons_ne_nil _ _
  have hlast := replaceAll_append outer.text (hne (n + 1)) []
  have htext : outer.text ++ replaceAll (Bit.text (.block (n + 1))) outer.text [] = ['[']
      ++ (Bit.text (.block n) ++ (([']'] ++ (outer.blanks ++ mark outer.digits)) ++ [])) := by
    rw [Cut.text, houter, replaceAll, replaceFrom]
    simp only [List.append_assoc, List.append_nil]
  rw [List.append_nil, htext] at hlast
  -- no quote, and so no placeholder, is anywhere but within the brackets
  have hskip : ∀ {s : List Char}, '"' ∉ s → ∀ t,
      replaceAll (Bit.text (.block n)) inner.text (s ++ t)
        = s ++ replaceAll (Bit.text (.block n)) inner.text t :=
    fun hs t => replaceAll_of_notMem inner.text t hs
  have hquote : '"' ∉ [']'] ++ (outer.blanks ++ mark outer.digits) := by
    obtain ⟨-, -, hds⟩ := splitMark?_eq_some_iff.1 (splitMark?_mark hdigits [])
    simp only [List.mem_append, not_or]
    refine ⟨by decide, fun hm => ?_, outsideMarks_quote _ hds⟩
    have := hblanks _ hm
    revert this
    decide
  rw [putBack, putBack, putBack, hlast, hskip (by decide), replaceAll_append _ (hne n),
    hskip hquote, replaceAll, replaceFrom, List.append_nil]

theorem RepeatBlock.extract_forest_nested :
    ¬ wordStart <:+: "[[1] @repeat(2)] @repeat(3)".toList
      ∧ (extract "[[1] @repeat(2)] @repeat(3)".toList { nextBlock := 4 }).2 =
        { blocks := [("ARRAY_4", ⟨"[1]", 2⟩), ("ARRAY_5", ⟨"[\"__REPEAT_ARRAY_4__\"]", 3⟩)]
          nextBlock := 6 }
      ∧ Forest "[[1] @repeat(2)] @repeat(3)".toList 4
        (extract "[[1] @repeat(2)] @repeat(3)".toList { nextBlock := 4 }).1
        [⟨⟨"[1]", 2⟩, [' '], ['2']⟩, ⟨⟨"[\"__REPEAT_ARRAY_4__\"]", 3⟩, [' '], ['3']⟩] := by
  have hword : ¬ wordStart <:+: "[[1] @repeat(2)] @repeat(3)".toList := by decide
  have hleft : (extract "[[1] @repeat(2)] @repeat(3)".toList { nextBlock := 4 }).1
      = Bit.text (.block 5) := by decide +kernel
  have hblocks : (extract "[[1] @repeat(2)] @repeat(3)".toList { nextBlock := 4 }).2.blocks
      = [("ARRAY_4", ⟨"[1]", 2⟩), ("ARRAY_5", ⟨"[\"__REPEAT_ARRAY_4__\"]", 3⟩)] := by
    decide +kernel
  obtain ⟨cuts, hforest, htable⟩ := extract_forest hword { nextBlock := 4 }
  rw [htable] at hblocks
  rw [hleft] at hforest
  have hlength := congrArg List.length hblocks
  rw [List.nil_append, List.length_mapIdx] at hlength
  obtain ⟨inner, outer, rfl⟩ := List.length_eq_two.1 hlength
  obtain ⟨⟨-, hinner⟩, -, houter⟩ : (blockName 4 = "ARRAY_4" ∧ inner.block = ⟨"[1]", 2⟩)
      ∧ blockName 5 = "ARRAY_5" ∧ outer.block = ⟨"[\"__REPEAT_ARRAY_4__\"]", 3⟩ := by
    simpa using hblocks
  obtain ⟨-, -, -, -, hblanks, hdigits, hrestores⟩ := id hforest
  rw [List.forall_mem_cons, List.forall_mem_singleton] at hblanks hdigits
  -- the text written back tells the blanks and the digits
  have htext : "[[1] @repeat(2)] @repeat(3)".toList = ['['] ++ ("[1]".toList ++ ([' ']
      ++ (mark ['2'] ++ ([']'] ++ ([' '] ++ (mark ['3'] ++ [])))))) := by decide
  rw [htext, putBack_pair (by rw [houter]; decide) hblanks.2 hdigits.2, Cut.text, hinner]
    at hrestores
  rw [hinner, houter] at hdigits
  simp only [List.append_assoc, List.append_cancel_left_eq] at hrestores
  have htwo : count? ['2'] = some 2 := by decide
  have hthree : count? ['3'] = some 3 := by decide
  have hblank : ∀ c ∈ [' '], isAsciiBlank c = true := List.forall_mem_singleton.2 rfl
  obtain ⟨hb, hd, h⟩ := eq_of_blanks_append_mark hblanks.1 hblank hdigits.1 htwo hrestores
  rw [← List.append_nil (mark outer.digits)] at h
  obtain ⟨hb', hd', -⟩ := eq_of_blanks_append_mark hblanks.2 hblank hdigits.2 hthree
    (List.append_cancel_left h)
  obtain rfl : inner = ⟨⟨"[1]", 2⟩, [' '], ['2']⟩ := by rw [← hinner, ← hb, ← hd]
  obtain rfl : outer = ⟨⟨"[\"__REPEAT_ARRAY_4__\"]", 3⟩, [' '], ['3']⟩ := by
    rw [← houter, ← hb', ← hd']
  rw [hleft]
  exact ⟨hword, htable, hforest⟩

end JsonTemplate
