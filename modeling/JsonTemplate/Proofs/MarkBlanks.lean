import JsonTemplate.Proofs.Brackets
import JsonTemplate.Proofs.Surroundings

/-!
# The blanks before a mark

The mark after a root is found behind blanks of any kind, the mark within a text behind ASCII blanks
only. An array with a mark is therefore a repeated root exactly when it is recorded as a block of a
text around it, provided that the blanks between the two are ASCII or the mark has no count
(`RepeatBlock.root_iff_block_iff`).
-/

namespace JsonTemplate

open Text

namespace RepeatBlock

/-- No bracket of a text is in one of its strings. -/
def BracketsOutside (t : List Char) : Prop :=
  ∀ x c y, t = x ++ c :: y → c = '[' ∨ c = ']' → EndsOutside x

theorem bracketsOutside_iff {t : List Char} :
    BracketsOutside t ↔ ∀ i : Fin t.length, t[i] = '[' ∨ t[i] = ']' → EndsOutside (t.take i) := by
  constructor
  · intro h i hi
    exact h _ t[i] (t.drop (i + 1)) (by simp) hi
  · rintro h x c y rfl hc
    have hx := h ⟨x.length, by simp⟩ (by simpa using hc)
    rwa [List.take_left' rfl] at hx

instance : DecidablePred BracketsOutside :=
  fun _ => decidable_of_iff _ bracketsOutside_iff.symm

theorem isBlank_closingBracket : isBlank ']' = false :=
  rfl

theorem notMem_of_isBlank {b : List Char} (hb : ∀ c ∈ b, isBlank c = true) {c : Char}
    (hc : isBlank c = false) : c ∉ b := by
  intro hm
  rw [hb c hm] at hc
  cases hc

/-! ## The root -/

/-- A mark after blanks of any kind counts if its digits do. -/
theorem headMark?_mark {b ds : List Char} (hb : ∀ c ∈ b, isBlank c = true)
    (hds : ∀ d ∈ ds, isDecimalDigit d = true) :
    headMark? (b ++ mark ds) = (count? ds).map fun n => (n, []) := by
  have hstart : trimStart (b ++ mark ds) = mark ds := by
    rw [trimStart, List.dropWhile_append_of_pos hb]
    exact List.dropWhile_cons_of_neg (by decide)
  rw [headMark?, hstart]
  by_cases hne : ds = []
  · subst hne
    rfl
  · have hmark := splitMark?_eq_some_iff.2 ⟨(List.append_nil (mark ds)).symm, hne, hds⟩
    simp only [hmark, Option.bind_some]

/-- An array with a mark is a repeated root exactly when the mark has a count. -/
theorem ofText?_arrayLiteral_iff {a b ds : List Char} (ha : ArrayLiteral a)
    (hb : ∀ c ∈ b, isBlank c = true) (hds : ∀ d ∈ ds, isDecimalDigit d = true) (n : Nat) :
    Plan.ofText? (a ++ (b ++ mark ds)) = some (.repeated a n) ↔ count? ds = some n := by
  obtain ⟨w, hw⟩ := ha.exists_eq
  have hopening : ∃ c u, a = c :: u ∧ Container.ofOpening? c = some .array := ⟨'[', _, hw, rfl⟩
  have hclosing : ∃ u, a = u ++ [Container.array.closing] := ⟨'[' :: w, hw⟩
  have hnoClosing : ']' ∉ b ++ mark ds := by
    have hmark := outsideMarks_of_notMem (c := ']') (by decide) (by decide) (by decide) ds hds
    rw [List.mem_append, not_or]
    exact ⟨notMem_of_isBlank hb isBlank_closingBracket, hmark⟩
  have hhead := headMark?_mark hb hds
  cases hcount : count? ds with
  | some m =>
    rw [hcount, Option.map_some] at hhead
    have hembedded : Embedded [] .array a (b ++ mark ds) [] :=
      ⟨List.forall_mem_nil _, hopening, .inl hclosing, by rwa [List.append_nil], .inr ⟨m, hhead⟩⟩
    have hplan := hembedded.ofText?
    rw [List.nil_append, List.append_nil, hhead] at hplan
    rw [hplan, Option.map_some, planOf, if_pos rfl]
    simp
  | none =>
    rw [hcount, Option.map_none] at hhead
    have hembedded : Embedded [] .array a [] (b ++ mark ds) :=
      ⟨List.forall_mem_nil _, hopening, .inl hclosing, hnoClosing, .inl ⟨rfl, hhead⟩⟩
    have hplan := hembedded.ofText?
    rw [List.nil_append, List.nil_append] at hplan
    rw [hplan]
    constructor <;> intro h <;> cases h

/-! ## The block -/

theorem splitArray?_blanks {b : List Char} (hb : ∀ c ∈ b, isAsciiBlank c = true) (t : List Char) :
    splitArray? (b ++ t) = splitArray? t := by
  rw [splitArray?, splitArray?, List.dropWhile_append_of_pos hb]

/-- The search for the array stops at a blank that is not ASCII. -/
theorem splitArray?_wideBlank {b : List Char} (hb : ∀ c ∈ b, isBlank c = true)
    (hwide : ¬ ∀ c ∈ b, isAsciiBlank c = true) (t : List Char) : splitArray? (b ++ t) = none := by
  have hne : b.dropWhile isAsciiBlank ≠ [] := fun hnil => hwide (List.dropWhile_eq_nil_iff.1 hnil)
  obtain ⟨c, u, hcu⟩ := List.exists_cons_of_ne_nil hne
  have hc : c ∈ b := (List.dropWhile_suffix isAsciiBlank).mem (hcu ▸ List.mem_cons_self)
  have hclose : c ≠ ']' := fun heq => notMem_of_isBlank hb isBlank_closingBracket (heq ▸ hc)
  have hdrop : (b ++ t).dropWhile isAsciiBlank = c :: (u ++ t) := by
    rw [List.dropWhile_append, hcu]
    rfl
  rw [splitArray?, hdrop]
  split
  · rename_i heq
    exact absurd (List.cons.inj heq).1 hclose
  · rfl

/-- A paired array is taken off the end of a text, with the ASCII blanks after it. -/
theorem splitArray?_paired {a b : List Char} (ha : ArrayLiteral a) (hpaired : IsPaired a)
    (hb : ∀ c ∈ b, isAsciiBlank c = true) (before : List Char) :
    splitArray? (b ++ (a.reverse ++ before)) = some (a, before) := by
  obtain ⟨w, rfl⟩ := ha.exists_eq
  obtain ⟨hless, hdepth⟩ := (isPaired_iff_reverse w).1 hpaired
  have hwalk : splitBracket? 1 [']'] (w.reverse ++ '[' :: before)
      = some ('[' :: (w.reverse.reverse ++ [']']), before) :=
    (splitBracket?_eq_some_iff before Nat.one_pos).2 ⟨hless, by rw [depth_reverse, hdepth]; rfl⟩
  have harray : ('[' :: (w ++ [']'])).reverse ++ before = ']' :: (w.reverse ++ '[' :: before) := by
    simp
  rw [List.reverse_reverse] at hwalk
  rw [splitArray?_blanks hb, harray, splitArray?, List.dropWhile_cons_of_neg (by decide)]
  exact hwalk

/-- A mark whose digits have no count adds nothing to the table. -/
theorem extractFrom_mark_of_countless {ds : List Char} (hds : ∀ d ∈ ds, isDecimalDigit d = true)
    (hcount : count? ds = none) {rest : List Char} (hrest : '@' ∉ rest) (before : List Char)
    (p : Placeholders) : (extractFrom before (mark ds ++ rest) p).2 = p := by
  by_cases hne : ds = []
  · subst hne
    have hhead : splitMark? (mark [] ++ rest) = none := by
      have hcloses : isDecimalDigit ')' = false := by decide
      simp [splitMark?, afterStart?, mark, markStart_eq, hcloses]
    have htail : '@' ∉ (mark []).tail ++ rest := by
      rw [List.mem_append, not_or]
      exact ⟨by decide, hrest⟩
    have hmarkless : MarklessBefore (mark [] ++ rest) [] :=
      ⟨by rw [List.append_nil]; exact hhead, marklessBefore_of_notMem [] htail⟩
    have hpassed := extractFrom_append p before hmarkless
    rw [List.append_nil] at hpassed
    rw [hpassed, extractFrom]
  · rw [extractFrom_of_splitMark? (splitMark?_eq_some_iff.2 ⟨rfl, hne, hds⟩), hcount]

/-- In a text without other signs an array with a mark is the one block exactly when the mark has a
count and there are ASCII blanks only before it. -/
theorem blocks_extract_iff {a b ds front back : List Char} (ha : ArrayLiteral a)
    (hpaired : IsPaired a) (hsign : '@' ∉ a) (hb : ∀ c ∈ b, isBlank c = true)
    (hds : ∀ d ∈ ds, isDecimalDigit d = true) (hfront : '@' ∉ front) (hback : '@' ∉ back) (n : Nat)
    (p : Placeholders) :
    (extract (front ++ (a ++ (b ++ mark ds)) ++ back) p).2.blocks
        = p.blocks ++ [(Placeholder.blockName p.nextBlock, ⟨String.ofList a, n⟩)]
      ↔ count? ds = some n ∧ ∀ c ∈ b, isAsciiBlank c = true := by
  have hbefore : '@' ∉ front ++ (a ++ b) := by
    simp [hfront, hsign, notMem_of_isBlank hb (c := '@') rfl]
  have htext : extract (front ++ (a ++ (b ++ mark ds)) ++ back) p
      = extractFrom (b.reverse ++ (a.reverse ++ front.reverse)) (mark ds ++ back) p := by
    simpa [extract] using extractFrom_of_notMem hbefore [] (mark ds ++ back) p
  rw [htext]
  cases hcount : count? ds with
  | none =>
    rw [extractFrom_mark_of_countless hds hcount hback]
    simp
  | some m =>
    by_cases hascii : ∀ c ∈ b, isAsciiBlank c = true
    · have harray := splitArray?_paired ha hpaired
        (fun c hc => hascii c (List.mem_reverse.1 hc)) front.reverse
      have hend := extractFrom_of_notMem hback
        ((Literal.ofBlock p.nextBlock).text.reverse ++ front.reverse) []
        (p.recordBlock ⟨String.ofList a, m⟩).2
      rw [List.append_nil] at hend
      rw [extractFrom_mark harray ⟨ds, m, hcount⟩, hend, extractFrom, and_iff_left hascii]
      simp [Placeholders.recordBlock]
    · have harray := splitArray?_wideBlank (b := b.reverse)
        (fun c hc => hb c (List.mem_reverse.1 hc))
        (fun h => hascii fun c hc => h c (List.mem_reverse.2 hc)) (a.reverse ++ front.reverse)
      rw [extractFrom_mark_of_none harray ⟨ds, m, hcount⟩]
      simp [hascii]

/-! ## Both -/

/-- An array with a mark, wherever it stands in a text without other signs, is the one block that is
recorded from the text exactly when it is a repeated root with the same count by itself, if and only
if the blanks before the mark are ASCII or its digits have no count. -/
theorem root_iff_block_iff {a b ds front back : List Char} (ha : ArrayLiteral a)
    (hstrings : BracketsOutside a) (hsign : '@' ∉ a) (hb : ∀ c ∈ b, isBlank c = true)
    (hds : ∀ d ∈ ds, isDecimalDigit d = true)
    (hfront : '@' ∉ front) (hback : '@' ∉ back) (p : Placeholders) :
    (∀ n, Plan.ofText? (a ++ (b ++ mark ds)) = some (.repeated a n)
        ↔ (extract (front ++ (a ++ (b ++ mark ds)) ++ back) p).2.blocks
          = p.blocks ++ [(Placeholder.blockName p.nextBlock, ⟨String.ofList a, n⟩)])
      ↔ (∀ c ∈ b, isAsciiBlank c = true) ∨ count? ds = none := by
  have hpaired := ha.isPaired hstrings
  simp only [ofText?_arrayLiteral_iff ha hb hds,
    blocks_extract_iff ha hpaired hsign hb hds hfront hback]
  constructor
  · intro h
    cases hcount : count? ds with
    | none => exact .inr rfl
    | some n => exact .inl ((h n).1 hcount).2
  · rintro (hascii | hnone) n
    · exact ⟨fun hcount => ⟨hcount, hascii⟩, And.left⟩
    · rw [hnone]
      exact iff_of_false nofun nofun

/-- A line break and a tab before the mark are no harm. -/
theorem root_iff_block_indented :
    ArrayLiteral "[[1], \"x\"]".toList ∧ BracketsOutside "[[1], \"x\"]".toList
      ∧ ∀ n, Plan.ofText? ("[[1], \"x\"]".toList ++ ("\n\t".toList ++ mark ['0', '2']))
          = some (.repeated "[[1], \"x\"]".toList n)
        ↔ (extract ("\x7b\"k\": ".toList ++ ("[[1], \"x\"]".toList ++ ("\n\t".toList
            ++ mark ['0', '2'])) ++ ['\x7d']) {}).2.blocks = [("ARRAY_0", ⟨"[[1], \"x\"]", n⟩)] := by
  have ha : ArrayLiteral "[[1], \"x\"]".toList := by decide +kernel
  have hstrings : BracketsOutside "[[1], \"x\"]".toList := by decide +kernel
  have hiff := @root_iff_block_iff _ "\n\t".toList ['0', '2'] "\x7b\"k\": ".toList ['\x7d'] ha
    hstrings (by decide +kernel) (List.all_eq_true.1 (by decide +kernel))
    (List.all_eq_true.1 (by decide +kernel)) (by decide +kernel) (by decide +kernel) {}
  refine ⟨ha, hstrings, fun n => ?_⟩
  have hn := hiff.2 (.inl (List.all_eq_true.1 (by decide +kernel))) n
  exact hn

/-- A no-break space before the mark hides the array from the search within a text. -/
theorem root_iff_block_noBreakSpace :
    ¬ ∀ (a b ds : List Char) (n : Nat), ArrayLiteral a → BracketsOutside a → '@' ∉ a →
      (∀ c ∈ b, isBlank c = true) → (∀ d ∈ ds, isDecimalDigit d = true) →
        (Plan.ofText? (a ++ (b ++ mark ds)) = some (.repeated a n)
          ↔ (extract ("\x7b\"k\": ".toList ++ (a ++ (b ++ mark ds)) ++ ['\x7d']) {}).2.blocks
            = [("ARRAY_0", ⟨String.ofList a, n⟩)]) := by
  intro h
  have hiff := h "[1]".toList ['\u00a0'] ['2'] 2 (by decide +kernel) (by decide +kernel)
    (by decide +kernel) (List.all_eq_true.1 (by decide +kernel))
    (List.all_eq_true.1 (by decide +kernel))
  have hplan : Plan.ofText? ("[1]".toList ++ (['\u00a0'] ++ mark ['2']))
      = some (.repeated "[1]".toList 2) := by
    decide +kernel
  have hblocks : (extract ("\x7b\"k\": ".toList ++ ("[1]".toList ++ (['\u00a0'] ++ mark ['2']))
      ++ ['\x7d']) {}).2.blocks = [] := by
    decide +kernel
  rw [hblocks] at hiff
  exact absurd (hiff.1 hplan) nofun

end RepeatBlock

end JsonTemplate
