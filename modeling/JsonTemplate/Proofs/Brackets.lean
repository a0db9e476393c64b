import JsonTemplate.Proofs.Flattening
import JsonTemplate.Proofs.Quotation
import Mathlib.Data.List.Infix

/-!
# The brackets of a repeated array

The array before a mark is found by a walk back from its last bracket, which counts the brackets
within strings as well. So the first block of a text is the array before the first mark exactly
when the array's first and last brackets are a pair among all of its brackets
(`extract_arrayLiteral_iff`). They are where none of the brackets is in a string
(`ArrayLiteral.isPaired`).
-/

namespace JsonTemplate.RepeatBlock

open Text

/-! ## Depth -/

def weight (c : Char) : Int :=
  if c = '[' then 1 else if c = ']' then -1 else 0

/-- How many more brackets a text opens than it closes. -/
def depth : List Char → Int
  | [] => 0
  | c :: t => weight c + depth t

/-- How many more brackets a text opens than it closes outside its strings, where it goes on from a
spot. -/
def outerDepth (s : Spot) : List Char → Int
  | [] => 0
  | c :: t => (if s.IsClosed then weight c else 0) + outerDepth (s.next c) t

@[simp] theorem weight_open : weight '[' = 1 :=
  rfl

@[simp] theorem weight_close : weight ']' = -1 :=
  rfl

@[simp] theorem depth_nil : depth [] = 0 :=
  rfl

@[simp] theorem depth_cons (c : Char) (t : List Char) : depth (c :: t) = weight c + depth t :=
  rfl

@[simp] theorem depth_append : ∀ s t : List Char, depth (s ++ t) = depth s + depth t
  | [], t => (Int.zero_add _).symm
  | c :: s, t => by
    rw [List.cons_append, depth_cons, depth_append s t, depth_cons, Int.add_assoc]

@[simp] theorem depth_reverse : ∀ t : List Char, depth t.reverse = depth t
  | [] => rfl
  | c :: t => by
    rw [List.reverse_cons, depth_append, depth_reverse t, depth_cons, depth_cons, depth_nil]
    omega

theorem outerDepth_append : ∀ (t u : List Char) (s : Spot),
    outerDepth s (t ++ u) = outerDepth s t + outerDepth (s.after t) u
  | [], u, s => (Int.zero_add _).symm
  | c :: t, u, s => by
    rw [List.cons_append, outerDepth, outerDepth, outerDepth_append t u (s.next c), Int.add_assoc]
    rfl

/-- A text begins with a bracket that its last character closes, as a measure of depth has it. -/
structure Encloses (measure : List Char → Int) (t : List Char) : Prop where
  opens : t.head? = some '['
  inside : ∀ x, x <+: t → x ≠ [] → x ≠ t → 0 < measure x
  closes : measure t = 0

instance (measure : List Char → Int) : DecidablePred (Encloses measure) := fun t =>
  decidable_of_iff
    (t.head? = some '[' ∧ (∀ x ∈ t.inits, x ≠ [] → x ≠ t → 0 < measure x) ∧ measure t = 0)
    ⟨fun ⟨ho, hi, hc⟩ => ⟨ho, fun x hx => hi x ((List.mem_inits x t).2 hx), hc⟩,
      fun ⟨ho, hi, hc⟩ => ⟨ho, fun x hx => hi x ((List.mem_inits x t).1 hx), hc⟩⟩

/-- An array as a template has it, whose brackets are matched outside its strings. -/
def ArrayLiteral (t : List Char) : Prop :=
  Encloses (outerDepth .outside) t

/-- The first bracket and the last are a pair when the brackets in strings are counted as well. -/
def IsPaired (t : List Char) : Prop :=
  Encloses depth t

instance : DecidablePred ArrayLiteral :=
  fun t => inferInstanceAs (Decidable (Encloses (outerDepth .outside) t))

instance : DecidablePred IsPaired :=
  fun t => inferInstanceAs (Decidable (Encloses depth t))

theorem ArrayLiteral.exists_eq {t : List Char} (h : ArrayLiteral t) :
    ∃ w, t = '[' :: (w ++ [']']) := by
  obtain ⟨t, rfl⟩ := List.head?_eq_some_iff.1 h.opens
  rcases List.eq_nil_or_concat t with rfl | ⟨w, c, rfl⟩
  · exact absurd h.closes (by decide)
  · have hinside := h.inside ('[' :: w) (by simp) (by simp) (by simp)
    have hcloses := h.closes
    rw [List.concat_eq_append, ← List.cons_append, outerDepth_append] at hcloses
    refine ⟨w, ?_⟩
    by_cases hc : c = ']'
    · rw [hc, List.concat_eq_append]
    · have hlast : 0 ≤ outerDepth (Spot.outside.after ('[' :: w)) [c] := by
        simp only [outerDepth, weight, if_neg hc]
        split
        · split <;> decide
        · decide
      omega

/-- Where all brackets are outside the strings, both measures of depth are the same. -/
theorem outerDepth_eq_depth : ∀ {t : List Char} {s : Spot},
    (∀ x c y, t = x ++ c :: y → c = '[' ∨ c = ']' → (s.after x).IsClosed) →
      outerDepth s t = depth t
  | [], _, _ => rfl
  | c :: t, s, h => by
    have hrest : outerDepth (s.next c) t = depth t :=
      outerDepth_eq_depth fun x d y ht hd => h (c :: x) d y (by rw [ht]; rfl) hd
    rw [outerDepth, depth_cons, hrest]
    split
    · rfl
    · rename_i hs
      have hc : ¬ (c = '[' ∨ c = ']') := fun hc => hs (h [] c t rfl hc)
      rw [not_or] at hc
      rw [weight, if_neg hc.1, if_neg hc.2]

/-- An array without brackets in its strings is a pair of brackets in any case. -/
theorem ArrayLiteral.isPaired {t : List Char} (h : ArrayLiteral t)
    (hstrings : ∀ x c y, t = x ++ c :: y → c = '[' ∨ c = ']' → EndsOutside x) : IsPaired t where
  opens := h.opens
  inside x hx hne hproper := by
    obtain ⟨y, rfl⟩ := hx
    have hx := h.inside x (List.prefix_append _ _) hne hproper
    rwa [outerDepth_eq_depth fun u c v hu => hstrings u c (v ++ y) (by simp [hu])] at hx
  closes := by rw [← outerDepth_eq_depth hstrings, h.closes]

/-! ## The walk back -/

theorem forall_prefix_cons_iff {P : List Char → Prop} {c : Char} {t : List Char} :
    (∀ x, x <+: c :: t → P x) ↔ P [] ∧ ∀ x, x <+: t → P (c :: x) := by
  constructor
  · intro h
    exact ⟨h [] List.nil_prefix, fun x hx => h _ (List.cons_prefix_cons.2 ⟨rfl, hx⟩)⟩
  · rintro ⟨hnil, hcons⟩ x hx
    rcases List.prefix_cons_iff.1 hx with rfl | ⟨y, rfl, hy⟩
    · exact hnil
    · exact hcons y hy

/-- The walk ends at a bracket exactly when the depth comes to nought there, and not before. -/
theorem splitBracket?_eq_some_iff (rest : List Char) : ∀ {w taken : List Char} {n : Nat}, 0 < n →
    (splitBracket? n taken (w ++ '[' :: rest) = some ('[' :: (w.reverse ++ taken), rest)
      ↔ (∀ x, x <+: w → depth x < n) ∧ depth w + 1 = n)
  | [], taken, n, hn => by
    by_cases h : n ≤ 1
    · have : n = 1 := by omega
      simp [splitBracket?, this]
    · have hne : (1 : Int) ≠ n := by omega
      have hlong : splitBracket? (n - 1) ('[' :: taken) rest ≠ some ('[' :: taken, rest) := by
        intro hs
        obtain ⟨u, hu⟩ := splitBracket?_head hs
        have := congrArg List.length hu
        simp at this
        omega
      simp [splitBracket?, h, hlong, hne]
  | c :: w, taken, n, hn => by
    have htaken : '[' :: ((c :: w).reverse ++ taken) = '[' :: (w.reverse ++ c :: taken) := by simp
    have ih {m : Nat} (hm : 0 < m) (hmc : (m : Int) = n - weight c) :
        splitBracket? m (c :: taken) (w ++ '[' :: rest)
            = some ('[' :: (w.reverse ++ c :: taken), rest)
          ↔ (∀ x, x <+: w → weight c + depth x < n) ∧ weight c + depth w + 1 = n := by
      have hless (x : List Char) : depth x < m ↔ weight c + depth x < n := by omega
      have heq : depth w + 1 = m ↔ weight c + depth w + 1 = n := by omega
      rw [splitBracket?_eq_some_iff rest hm, heq]
      simp only [hless]
    have hpos : (0 : Int) < n := by omega
    rw [htaken, List.cons_append, splitBracket?, forall_prefix_cons_iff]
    simp only [depth_nil, depth_cons, hpos, true_and]
    split
    · rename_i hc
      exact ih (Nat.succ_pos n) (by rw [hc, weight_close]; omega)
    · split
      · rename_i hc
        split
        · rename_i hn1
          refine iff_of_false (fun h => ?_) (fun h => ?_)
          · have := congrArg List.length (Prod.mk.inj (Option.some.inj h)).1
            simp at this
            omega
          · have := h.1 [] List.nil_prefix
            rw [hc, depth_nil, weight_open] at this
            omega
        · exact ih (by omega) (by rw [hc, weight_open]; omega)
      · rename_i hclose hopen
        exact ih hn (by rw [weight, if_neg hopen, if_neg hclose, Int.sub_zero])

/-- A walk back that takes the array off leaves what stood before it. -/
theorem map_fst_splitBracket?_eq_some_iff (w before : List Char) :
    (splitBracket? 1 [']'] (w.reverse ++ '[' :: before)).map Prod.fst = some ('[' :: (w ++ [']']))
      ↔ splitBracket? 1 [']'] (w.reverse ++ '[' :: before)
        = some ('[' :: (w ++ [']']), before) := by
  constructor
  · intro h
    obtain ⟨⟨template, front⟩, hs, rfl⟩ := Option.map_eq_some_iff.1 h
    have happend := splitBracket?_append hs
    obtain rfl : front = before := by simpa [List.append_cancel_right_eq] using happend
    exact hs
  · intro h
    rw [h, Option.map_some]

/-- Seen from its last bracket: on the way back to the first no more brackets are opened than
closed. -/
theorem isPaired_iff_reverse (w : List Char) :
    IsPaired ('[' :: (w ++ [']'])) ↔ (∀ x, x <+: w.reverse → depth x < 1) ∧ depth w = 0 := by
  have hwhole : depth ('[' :: (w ++ [']'])) = depth w := by
    rw [depth_cons, depth_append, depth_cons, depth_nil, weight_open, weight_close]
    omega
  constructor
  · intro h
    have hw := hwhole.symm.trans h.closes
    refine ⟨fun x hx => ?_, hw⟩
    obtain ⟨y, hy⟩ := hx
    obtain rfl : w = y.reverse ++ x.reverse := by
      rw [← List.reverse_append, hy, List.reverse_reverse]
    have hinside := h.inside ('[' :: y.reverse) (by simp) (List.cons_ne_nil _ _) fun heq => by
      have := congrArg List.length heq
      simp at this
    rw [depth_cons, weight_open] at hinside
    rw [depth_append, depth_reverse x] at hw
    omega
  · rintro ⟨hless, hw⟩
    refine ⟨rfl, fun x hx hne hproper => ?_, hwhole.trans hw⟩
    rcases List.prefix_cons_iff.1 hx with rfl | ⟨x, rfl, hxw⟩
    · exact absurd rfl hne
    rcases List.prefix_concat_iff.1 hxw with rfl | ⟨y, rfl⟩
    · exact absurd rfl hproper
    have hy := hless y.reverse (by simp)
    rw [depth_reverse] at hy
    rw [depth_append] at hw
    rw [depth_cons, weight_open]
    omega

/-- What is taken off the end of a text is the array there exactly when the array is paired. -/
theorem splitArray?_eq_some_iff (w before : List Char) :
    (splitArray? (' ' :: (('[' :: (w ++ [']'])).reverse ++ before))).map Prod.fst
        = some ('[' :: (w ++ [']']))
      ↔ IsPaired ('[' :: (w ++ [']'])) := by
  have hsplit : splitArray? (' ' :: (('[' :: (w ++ [']'])).reverse ++ before))
      = splitBracket? 1 [']'] (w.reverse ++ '[' :: before) := by
    have hblank : isAsciiBlank ' ' = true := rfl
    have hclose : isAsciiBlank ']' = false := rfl
    simp [splitArray?, hblank, hclose]
  have hwalk := @splitBracket?_eq_some_iff before w.reverse [']'] 1 Nat.one_pos
  rw [List.reverse_reverse, depth_reverse] at hwalk
  have hend : depth w + 1 = (1 : Nat) ↔ depth w = 0 := by omega
  rw [hsplit, map_fst_splitBracket?_eq_some_iff, isPaired_iff_reverse, hwalk, hend]
  rfl

/-! ## The first block -/

/-- Blocks are added after those there are. -/
theorem blocks_prefix_extractFrom (before after : List Char) (p : Placeholders) :
    p.blocks <+: (extractFrom before after p).2.blocks := by
  fun_induction extractFrom before after p with
  | case1 => exact List.prefix_rfl
  | case2 before p c t hm ih => exact ih
  | case3 before p c t ds rest hm count template before' ha hc placeholder p' heq ih =>
    cases heq
    exact (List.prefix_append _ _).trans ih
  | case4 => exact List.prefix_rfl

theorem marklessBefore_of_absent {c : Char} (hc : c ∉ markStart) (rest : List Char) :
    ∀ {t : List Char}, ¬ markStart <:+: t → MarklessBefore t (c :: rest)
  | [], _ => trivial
  | d :: t, h => by
    have hrest : ¬ markStart <:+: t := fun ht => h (ht.trans (List.suffix_cons d t).isInfix)
    refine ⟨?_, marklessBefore_of_absent hc rest hrest⟩
    cases hs : splitMark? (d :: t ++ c :: rest) with
    | none => rfl
    | some r =>
      obtain ⟨hr, -⟩ := splitMark?_eq_some_iff.1 hs
      rw [mark, List.append_assoc, List.append_assoc] at hr
      obtain ⟨v, hv⟩ := eq_append_of_append_eq hc hr
      exact absurd ⟨[], v, by rw [hv]; rfl⟩ h

theorem extractFrom_mark_of_none {before : List Char} (ha : splitArray? before = none) (m : Mark)
    (rest : List Char) (p : Placeholders) :
    extractFrom before (mark m.digits ++ rest) p
      = (before.reverse ++ (mark m.digits ++ rest), p) := by
  rw [extractFrom_of_splitMark? (splitMark?_mark m.isCount rest), m.isCount, ha]

/-- The first block that is recorded is the array before the first mark exactly when that is
paired. -/
theorem extract_arrayLiteral_iff {before a : List Char} (hbefore : ¬ markStart <:+: before)
    (ha : ArrayLiteral a) (hmark : ¬ markStart <:+: a) (m : Mark) (after : List Char)
    (p : Placeholders) :
    (∃ more, (extract (before ++ a ++ ' ' :: mark m.digits ++ after) p).2.blocks
        = p.blocks ++ (Placeholder.blockName p.nextBlock, ⟨String.ofList a, m.count⟩) :: more)
      ↔ IsPaired a := by
  obtain ⟨w, rfl⟩ := ha.exists_eq
  have hfront : MarklessBefore (before ++ '[' :: (w ++ [']']) ++ [' '])
      (mark m.digits ++ after) := by
    rw [marklessBefore_append, marklessBefore_append]
    exact ⟨⟨marklessBefore_of_absent (by decide) _ hbefore,
      marklessBefore_of_absent (by decide) _ hmark⟩,
      splitMark?_eq_none_of_head (by decide), trivial⟩
  have hextract : extract (before ++ '[' :: (w ++ [']']) ++ ' ' :: mark m.digits ++ after) p
      = extractFrom (' ' :: (('[' :: (w ++ [']'])).reverse ++ before.reverse))
          (mark m.digits ++ after) p := by
    simpa [extract] using extractFrom_append p [] hfront
  rw [hextract, ← splitArray?_eq_some_iff w before.reverse]
  cases hs : splitArray? (' ' :: (('[' :: (w ++ [']'])).reverse ++ before.reverse)) with
  | none =>
    rw [extractFrom_mark_of_none hs]
    simp
  | some r =>
    obtain ⟨template, front⟩ := r
    rw [extractFrom_mark hs]
    obtain ⟨more, hmore⟩ := blocks_prefix_extractFrom
      ((Literal.ofBlock p.nextBlock).text.reverse ++ front) after
      (p.recordBlock ⟨String.ofList template, m.count⟩).2
    rw [← hmore]
    generalize '[' :: (w ++ [']']) = a
    simp [Placeholders.recordBlock, String.ofList_inj]

/-- Brackets in a string that are matched among themselves are no harm. -/
theorem extract_arrayLiteral_matched :
    ArrayLiteral "[\"[]\", []]".toList ∧ IsPaired "[\"[]\", []]".toList
      ∧ ∃ more, (extract ("[1".toList ++ "[\"[]\", []]".toList
          ++ ' ' :: mark ['0', '2'] ++ " @repeat(x)".toList) {}).2.blocks
        = ("ARRAY_0", ⟨"[\"[]\", []]", 2⟩) :: more := by
  have ha : ArrayLiteral "[\"[]\", []]".toList := by decide +kernel
  have hpaired : IsPaired "[\"[]\", []]".toList := by decide +kernel
  refine ⟨ha, hpaired, ?_⟩
  have hbefore : ¬ markStart <:+: "[1".toList := by decide +kernel
  have hmark : ¬ markStart <:+: "[\"[]\", []]".toList := by decide +kernel
  have hiff := extract_arrayLiteral_iff hbefore ha hmark ⟨['0', '2'], 2, rfl⟩
    " @repeat(x)".toList {}
  exact hiff.2 hpaired

/-- A closing bracket in a string is counted, and no array is found before the mark. -/
theorem extract_arrayLiteral_unmatched :
    ¬ ∀ (before a : List Char) (m : Mark) (after : List Char) (p : Placeholders),
      EndsOutside before → ¬ markStart <:+: before → ArrayLiteral a → ¬ markStart <:+: a →
      (∀ x y, a = x ++ '@' :: y → EndsOutside x) →
        ∃ more, (extract (before ++ a ++ ' ' :: mark m.digits ++ after) p).2.blocks
          = p.blocks ++ (Placeholder.blockName p.nextBlock, ⟨String.ofList a, m.count⟩) :: more := by
  intro h
  have hsign : '@' ∉ "[\"]\"]".toList := by decide +kernel
  obtain ⟨more, hmore⟩ := h "\x7b\"k\": ".toList "[\"]\"]".toList ⟨['2'], 2, rfl⟩ "\x7d".toList
    {} (by decide +kernel) (by decide +kernel) (by decide +kernel) (by decide +kernel)
    (fun x y heq => absurd (heq ▸ List.mem_append_right x List.mem_cons_self) hsign)
  have hblocks : (extract ("\x7b\"k\": ".toList ++ "[\"]\"]".toList ++ ' ' :: mark ['2']
      ++ "\x7d".toList) {}).2.blocks = [] := by
    decide +kernel
  rw [hblocks] at hmore
  cases hmore

end JsonTemplate.RepeatBlock
