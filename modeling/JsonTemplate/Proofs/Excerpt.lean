import JsonTemplate.Proofs.Bits
import JsonTemplate.Proofs.Flattening
import JsonTemplate.Proofs.Registry

/-!
# Excerpts

What the extraction of blocks takes out of a text does not depend on the numbers that the table has
given out before: numbered from nought, the cuttings and the bits that are left are those of the
text alone (`Excerpt.ofText`), and every table shifts their numbers by its next one
(`Excerpt.extract_eq`).
-/

namespace JsonTemplate

open Text

namespace Bit

/-- The bit with the number of its block counted from `m` on. -/
def shift (m : Nat) : Bit → Bit
  | .char c => .char c
  | .block n => .block (m + n)

/-- The text of bits with their blocks numbered from `m` on. -/
def textFrom (m : Nat) (bits : List Bit) : List Char :=
  textOf (bits.map (shift m))

section TextFrom

variable (m : Nat)

@[simp] theorem textFrom_nil : textFrom m [] = [] :=
  rfl

@[simp] theorem textFrom_char (c : Char) (bits : List Bit) :
    textFrom m (.char c :: bits) = c :: textFrom m bits :=
  rfl

@[simp] theorem textFrom_block (n : Nat) (bits : List Bit) :
    textFrom m (.block n :: bits) = text (.block (m + n)) ++ textFrom m bits :=
  rfl

@[simp] theorem textFrom_append (xs ys : List Bit) :
    textFrom m (xs ++ ys) = textFrom m xs ++ textFrom m ys := by
  rw [textFrom, List.map_append, textOf_append]
  rfl

@[simp] theorem textFrom_map_char : ∀ t : List Char, textFrom m (t.map .char) = t
  | [] => rfl
  | c :: t => congrArg (c :: ·) (textFrom_map_char t)

end TextFrom

theorem balanced_text_block (n : Nat) : RepeatBlock.Balanced (text (.block n)) := by
  have hname : ∀ c, Token.isNameChar c = false → c ≠ '"' → c ∉ text (.block n) := by
    intro c hc hquote h
    rw [text, List.cons_append, List.mem_cons, List.mem_append, List.mem_singleton] at h
    rcases h with h | h | h
    · exact hquote h
    · rw [Placeholder.isNameChar_of_mem_ofBlock h] at hc
      cases hc
    · exact hquote h
  exact RepeatBlock.balanced_of_notMem (hname _ rfl (by decide)) (hname _ rfl (by decide))

end Bit

open Bit

/-- An array that was cut out of a text with the blanks and the mark after it. -/
structure Cutting where
  template : List Bit
  blanks : List Char
  digits : List Char
  count : Nat
  deriving DecidableEq

/-- The block that is recorded for a cutting where blocks are numbered from `m` on. -/
def Cutting.block (m : Nat) (c : Cutting) : RepeatBlock :=
  ⟨String.ofList (textFrom m c.template), c.count⟩

/-- What is left of a text, and what was cut out of it, the first cutting first. -/
structure Excerpt where
  left : List Bit
  cuttings : List Cutting
  deriving DecidableEq

namespace Excerpt

/-- Walks from a closing bracket back to the bracket that it closes, over reversed bits. -/
def splitBracket? (depth : Nat) (taken : List Bit) : List Bit → Option (List Bit × List Bit)
  | [] => none
  | .block n :: before => splitBracket? depth (.block n :: taken) before
  | .char c :: before =>
    if c = ']' then splitBracket? (depth + 1) (.char c :: taken) before
    else if c = '[' then
      if depth ≤ 1 then some (.char c :: taken, before)
      else splitBracket? (depth - 1) (.char c :: taken) before
    else splitBracket? depth (.char c :: taken) before

/-- Takes the blanks off the end of reversed bits. -/
def splitBlanks (blanks : List Char) : List Bit → List Char × List Bit
  | .char c :: before =>
    if isAsciiBlank c then splitBlanks (c :: blanks) before else (blanks, .char c :: before)
  | before => (blanks, before)

/-- Takes an array and the blanks after it off the end of reversed bits. -/
def splitArray? (before : List Bit) : Option (List Bit × List Char × List Bit) :=
  match splitBlanks [] before with
  | (blanks, .char ']' :: before) =>
    (splitBracket? 1 [.char ']'] before).map fun (template, before) => (template, blanks, before)
  | _ => none

/-- Takes the blocks out of `after`; `before` are the reversed bits to its left. -/
def takeOut (before : List Bit) (after : List Char) (cuttings : List Cutting) : Excerpt :=
  match after with
  | [] => ⟨before.reverse, cuttings⟩
  | c :: t =>
    match _h : RepeatBlock.splitMark? (c :: t) with
    | none => takeOut (.char c :: before) t cuttings
    | some (digits, rest) =>
      match RepeatBlock.count? digits, splitArray? before with
      | some count, some (template, blanks, before) =>
        takeOut (.block cuttings.length :: before) rest
          (cuttings ++ [⟨template, blanks, digits, count⟩])
      | _, _ => ⟨before.reverse ++ (c :: t).map .char, cuttings⟩
termination_by after.length
decreasing_by
  · simp
  · exact RepeatBlock.length_lt_of_splitMark? ‹_›

/-- Takes the blocks out of a text. -/
def ofText (t : List Char) : Excerpt :=
  takeOut [] t []

/-! ## Arrays -/

theorem splitBracket?_append {before template rest : List Bit} : ∀ {depth : Nat}
    {taken : List Bit}, splitBracket? depth taken before = some (template, rest) →
      rest.reverse ++ template = before.reverse ++ taken := by
  induction before with
  | nil =>
    intro depth taken h
    cases h
  | cons b before ih =>
    intro depth taken h
    cases b with
    | block n => simpa using ih h
    | char c =>
      simp only [splitBracket?] at h
      split at h
      · simpa using ih h
      · split at h
        · split at h
          · cases h
            simp
          · simpa using ih h
        · simpa using ih h

theorem splitBracket?_head {before template rest : List Bit} : ∀ {depth : Nat}
    {taken : List Bit}, splitBracket? depth taken before = some (template, rest) →
      ∃ u, template = .char '[' :: (u ++ taken) := by
  induction before with
  | nil =>
    intro depth taken h
    cases h
  | cons b before ih =>
    intro depth taken h
    have hcons : ∀ {depth : Nat}, splitBracket? depth (b :: taken) before = some (template, rest) →
        ∃ u, template = .char '[' :: (u ++ taken) := by
      intro depth h
      obtain ⟨u, rfl⟩ := ih h
      exact ⟨u ++ [b], by simp⟩
    cases b with
    | block n => exact hcons h
    | char c =>
      simp only [splitBracket?] at h
      split at h
      · exact hcons h
      · split at h
        · rename_i hc
          split at h
          · cases h
            exact ⟨[], by rw [hc]; rfl⟩
          · exact hcons h
        · exact hcons h

theorem splitBlanks_append : ∀ (before : List Bit) (taken : List Char),
    (splitBlanks taken before).2.reverse ++ (splitBlanks taken before).1.map .char
      = before.reverse ++ taken.map .char
  | [], _ => rfl
  | .block _ :: _, _ => rfl
  | .char c :: before, taken => by
    rw [splitBlanks]
    split
    · rw [splitBlanks_append before (c :: taken)]
      simp
    · rfl

theorem isAsciiBlank_of_mem_splitBlanks : ∀ (before : List Bit) {taken : List Char},
    (∀ c ∈ taken, isAsciiBlank c = true) →
      ∀ c ∈ (splitBlanks taken before).1, isAsciiBlank c = true
  | [], _, h, c, hc => h c hc
  | .block _ :: _, _, h, c, hc => h c hc
  | .char d :: before, taken, h, c, hc => by
    rw [splitBlanks] at hc
    split at hc
    · rename_i hd
      refine isAsciiBlank_of_mem_splitBlanks before (fun e he => ?_) c hc
      rcases List.mem_cons.1 he with rfl | he
      · exact hd
      · exact h e he
    · exact h c hc

/-- The array, with the blanks after it, is the end of the bits. -/
theorem splitArray?_eq_some {before template rest : List Bit} {blanks : List Char}
    (h : splitArray? before = some (template, blanks, rest)) :
    before.reverse = rest.reverse ++ (template ++ blanks.map .char)
      ∧ (∃ u, template = .char '[' :: (u ++ [.char ']']))
      ∧ ∀ c ∈ blanks, isAsciiBlank c = true := by
  unfold splitArray? at h
  split at h
  · rename_i blanks' before' hb
    obtain ⟨⟨template', rest'⟩, hbracket, heq⟩ := Option.map_eq_some_iff.1 h
    cases heq
    have happ := splitBlanks_append before []
    have hblank :=
      isAsciiBlank_of_mem_splitBlanks before (List.forall_mem_nil (isAsciiBlank · = true))
    rw [hb] at happ hblank
    refine ⟨?_, splitBracket?_head hbracket, hblank⟩
    rw [← List.append_assoc, splitBracket?_append hbracket, ← List.reverse_cons, happ]
    simp
  · cases h

/-! ## Runs -/

/-- What each block that is taken out keeps true holds in the end. -/
theorem ofText_induction {P : List Bit → List Cutting → Prop} {t : List Char}
    (hstart : P (t.map .char) [])
    (hstep : ∀ front rest cuttings c,
      P (front ++ (c.template ++ (c.blanks ++ (RepeatBlock.mark c.digits ++ rest)).map .char))
        cuttings → (∃ u, c.template = .char '[' :: (u ++ [.char ']'])) →
      (∀ d ∈ c.blanks, isAsciiBlank d = true) → RepeatBlock.count? c.digits = some c.count →
        P (front ++ .block cuttings.length :: rest.map .char) (cuttings ++ [c])) :
    P (ofText t).left (ofText t).cuttings := by
  suffices h : ∀ before after cuttings, P (before.reverse ++ after.map .char) cuttings →
      P (takeOut before after cuttings).left (takeOut before after cuttings).cuttings from
    h [] t [] hstart
  intro before after cuttings h
  fun_induction takeOut before after cuttings with
  | case1 before cuttings => simpa using h
  | case2 before cuttings c t hm ih => exact ih (by simpa using h)
  | case3 before cuttings c t digits rest hm count template blanks before' ha hc ih =>
    obtain ⟨happ, hbrackets, hblanks⟩ := splitArray?_eq_some ha
    have hmark := (RepeatBlock.splitMark?_eq_some_iff.1 hm).1
    have := hstep before'.reverse rest cuttings ⟨template, blanks, digits, count⟩
      (by simpa [happ, hmark] using h) hbrackets hblanks hc
    exact ih (by simpa using this)
  | case4 before cuttings c t digits rest hm hnone => exact h

/-! ## The excerpt and the table -/

section Table

variable (m : Nat)

/-- The reversed text of reversed bits. -/
def reversedFrom (before : List Bit) : List Char :=
  (textFrom m before.reverse).reverse

theorem reversedFrom_char (c : Char) (before : List Bit) :
    reversedFrom m (.char c :: before) = c :: reversedFrom m before := by
  simp [reversedFrom]

theorem reversedFrom_block (n : Nat) (before : List Bit) :
    reversedFrom m (.block n :: before)
      = (text (.block (m + n))).reverse ++ reversedFrom m before := by
  simp [reversedFrom]

theorem splitBracket?_reversedFrom : ∀ (before taken : List Bit) {depth : Nat}, 0 < depth →
    RepeatBlock.splitBracket? depth (textFrom m taken) (reversedFrom m before)
      = (splitBracket? depth taken before).map fun r => (textFrom m r.1, reversedFrom m r.2)
  | [], _, _, _ => rfl
  | .block n :: before, taken, depth, hd => by
    rw [reversedFrom_block, balanced_text_block _ _ _ _ hd, ← textFrom_block,
      splitBracket?_reversedFrom before _ hd]
    rfl
  | .char c :: before, taken, depth, hd => by
    rw [reversedFrom_char, RepeatBlock.splitBracket?, splitBracket?, ← textFrom_char]
    split
    · exact splitBracket?_reversedFrom before _ (Nat.succ_pos depth)
    · split
      · split
        · rfl
        · exact splitBracket?_reversedFrom before _ (by omega)
      · exact splitBracket?_reversedFrom before _ hd

theorem dropWhile_reversedFrom : ∀ (before : List Bit) (taken : List Char),
    (reversedFrom m before).dropWhile isAsciiBlank = reversedFrom m (splitBlanks taken before).2
  | [], _ => rfl
  | .block n :: before, taken => by
    rw [reversedFrom_block, splitBlanks, reversedFrom_block, text]
    · simp [isAsciiBlank]
    · simp
  | .char c :: before, taken => by
    rw [reversedFrom_char, List.dropWhile_cons, splitBlanks]
    split
    · exact dropWhile_reversedFrom before _
    · exact (reversedFrom_char m c before).symm

theorem splitArray?_reversedFrom (before : List Bit) :
    RepeatBlock.splitArray? (reversedFrom m before)
      = (splitArray? before).map fun r => (textFrom m r.1, reversedFrom m r.2.2) := by
  rw [RepeatBlock.splitArray?, dropWhile_reversedFrom m before [], splitArray?]
  obtain ⟨blanks, rest⟩ := splitBlanks [] before
  rcases rest with _ | ⟨c | n, rest⟩
  · rfl
  · rw [reversedFrom_char]
    by_cases hc : c = ']'
    · subst hc
      simpa [Option.map_map, Function.comp_def]
        using splitBracket?_reversedFrom m rest [.char ']'] Nat.one_pos
    · simp [hc]
  · simp [reversedFrom_block, text]

end Table

end Excerpt

namespace Placeholders

/-- The table with a block for each cutting. -/
def recordAll (p : Placeholders) (cuttings : List Cutting) : Placeholders :=
  { p with
    blocks := p.blocks ++ cuttings.mapIdx fun i c =>
      (Placeholder.blockName (p.nextBlock + i), c.block p.nextBlock)
    nextBlock := p.nextBlock + cuttings.length }

theorem recordAll_nil (p : Placeholders) : p.recordAll [] = p := by
  simp [recordAll]

theorem recordBlock_recordAll (p : Placeholders) (cuttings : List Cutting) (c : Cutting) :
    (p.recordAll cuttings).recordBlock (c.block p.nextBlock)
      = (Placeholder.ofBlock (Placeholder.blockName (p.nextBlock + cuttings.length)),
        p.recordAll (cuttings ++ [c])) := by
  simp [recordAll, recordBlock, List.mapIdx_append, Nat.add_assoc]

end Placeholders

namespace Excerpt

theorem extractFrom_eq (p : Placeholders) (before : List Bit) (after : List Char)
    (cuttings : List Cutting) :
    RepeatBlock.extractFrom (reversedFrom p.nextBlock before) after (p.recordAll cuttings)
      = (textFrom p.nextBlock (takeOut before after cuttings).left,
        p.recordAll (takeOut before after cuttings).cuttings) := by
  fun_induction takeOut before after cuttings with
  | case1 before cuttings => simp [RepeatBlock.extractFrom, reversedFrom]
  | case2 before cuttings c t hm ih =>
    rw [RepeatBlock.extractFrom]
    split
    · rw [← reversedFrom_char, ih]
    · rename_i hs
      rw [hm] at hs
      cases hs
  | case3 before cuttings c t digits rest hm count template blanks before' ha hc ih =>
    have harray := splitArray?_reversedFrom p.nextBlock before
    rw [ha] at harray
    have hrecord := p.recordBlock_recordAll cuttings ⟨template, blanks, digits, count⟩
    rw [Cutting.block] at hrecord
    rw [RepeatBlock.extractFrom]
    split
    · rename_i hs
      rw [hm] at hs
      cases hs
    · rename_i hs
      rw [hm] at hs
      cases hs
      simp only [hc, harray, Option.map_some, hrecord]
      rw [← ih, reversedFrom_block, text]
      simp
  | case4 before cuttings c t digits rest hm hnone =>
    have harray := splitArray?_reversedFrom p.nextBlock before
    rw [RepeatBlock.extractFrom]
    split
    · rename_i hs
      rw [hm] at hs
      cases hs
    · rename_i hs
      rw [hm] at hs
      cases hs
      split
      · rename_i template before' hc ha
        rw [ha] at harray
        obtain ⟨⟨template', blanks, before''⟩, ha', -⟩ := Option.map_eq_some_iff.1 harray.symm
        exact absurd ha' (hnone _ _ _ _ hc)
      · simp [reversedFrom]

/-- Every table gives the same excerpt, numbered from its next number on. -/
theorem extract_eq (t : List Char) (p : Placeholders) :
    RepeatBlock.extract t p
      = (textFrom p.nextBlock (ofText t).left, p.recordAll (ofText t).cuttings) := by
  rw [ofText, ← extractFrom_eq p [] t [], p.recordAll_nil]
  rfl

/-- No mark is left in what was cut out of a text. -/
theorem markless_of_mem (t : List Char) (m : Nat) {c : Cutting} (hc : c ∈ (ofText t).cuttings) :
    RepeatBlock.Markless (textFrom m c.template) := by
  have hp : Placeholders.WellFormed { nextBlock := m } :=
    ⟨by simp, by simp, by simp, by simp⟩
  have htemplate := (hp.extract t).template
  rw [extract_eq] at htemplate
  obtain ⟨i, hi, rfl⟩ := List.getElem_of_mem hc
  have := htemplate _ (List.mem_append_right _ (List.mem_mapIdx.2 ⟨i, hi, rfl⟩))
  rwa [Cutting.block, String.toList_ofList] at this

/-- The blocks of bits have numbers below the number of cuttings, and those of a cutting below its
own. -/
structure Nested (bits : List Bit) (cuttings : List Cutting) : Prop where
  left : ∀ n, .block n ∈ bits → n < cuttings.length
  template : ∀ (i : Nat) (c : Cutting), cuttings[i]? = some c → ∀ n, .block n ∈ c.template → n < i

theorem Nested.step {front : List Bit} {rest : List Char} {cuttings : List Cutting} {c : Cutting}
    (h : Nested
      (front ++ (c.template ++ (c.blanks ++ (RepeatBlock.mark c.digits ++ rest)).map .char))
      cuttings) :
    Nested (front ++ .block cuttings.length :: rest.map .char) (cuttings ++ [c]) where
  left n hn := by
    rw [List.length_append, List.length_singleton]
    simp only [List.mem_append, List.mem_cons, Bit.block.injEq, List.mem_map, reduceCtorEq,
      and_false, exists_false, or_false] at hn
    rcases hn with hn | rfl
    · exact Nat.lt_succ_of_lt (h.left n (List.mem_append_left _ hn))
    · exact Nat.lt_succ_self _
  template i d hd n hn := by
    rcases Nat.lt_or_ge i cuttings.length with hlt | hge
    · rw [List.getElem?_append_left hlt] at hd
      exact h.template i d hd n hn
    · rw [List.getElem?_append_right hge] at hd
      obtain ⟨hzero, rfl⟩ := List.getElem?_eq_some_iff.1 hd
      rw [List.getElem_singleton] at hn
      refine Nat.lt_of_lt_of_le (h.left n ?_) hge
      exact List.mem_append_right _ (List.mem_append_left _ hn)

/-- A block lies within a later one, or is left. -/
theorem nested_ofText (t : List Char) : Nested (ofText t).left (ofText t).cuttings :=
  ofText_induction (P := Nested) ⟨fun n hn => by simp at hn, fun i c hc => by simp at hc⟩
    fun _ _ _ _ h _ _ _ => h.step

/-- What was cut out of a text is between brackets. -/
theorem brackets_of_mem {t : List Char} {c : Cutting} (hc : c ∈ (ofText t).cuttings) :
    ∃ u, c.template = .char '[' :: (u ++ [.char ']']) := by
  have h : ∀ d ∈ (ofText t).cuttings, ∃ u, d.template = .char '[' :: (u ++ [.char ']']) := by
    refine ofText_induction (P := fun _ cuttings : List _ => ∀ d ∈ cuttings,
      ∃ u, Cutting.template d = .char '[' :: (u ++ [.char ']'])) (List.forall_mem_nil _) ?_
    intro _ _ _ _ hcuttings hbrackets _ _
    exact List.forall_mem_append.2 ⟨hcuttings, List.forall_mem_singleton.2 hbrackets⟩
  exact h c hc

end Excerpt

end JsonTemplate
