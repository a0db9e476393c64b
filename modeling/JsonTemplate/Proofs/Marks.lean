import JsonTemplate.Proofs.PlaceholderText
import JsonTemplate.RepeatBlock

/-!
# Repeat marks

A mark is `@repeat(`, digits and a bracket (`splitMark?_eq_some_iff`). The blocks that are recorded
from a text have no mark left in them (`extractFrom_induction`), so that reading a block again
records nothing (`extract_of_markless`). A placeholder makes no mark of what stands around it, so
that the search may go on from there or start over (`extract_eq_replaceFirst?`).
-/

namespace JsonTemplate.RepeatBlock

open Text

theorem markStart_eq : markStart = ['@', 'r', 'e', 'p', 'e', 'a', 't', '('] :=
  rfl

/-- A repeat mark with the given digits. -/
def mark (ds : List Char) : List Char :=
  markStart ++ ds ++ [')']

theorem splitMark?_eq_some_iff {t ds rest : List Char} :
    splitMark? t = some (ds, rest)
      ↔ t = mark ds ++ rest ∧ ds ≠ [] ∧ ∀ d ∈ ds, isDecimalDigit d = true := by
  constructor
  · intro h
    obtain ⟨u, hu, h⟩ := Option.bind_eq_some_iff.1 h
    split at h
    · rename_i d ds' rest' hd hr
      cases h
      have hsplit := List.takeWhile_append_dropWhile (p := isDecimalDigit) (l := u)
      rw [hd, hr] at hsplit
      refine ⟨?_, List.cons_ne_nil _ _, fun c hc => ?_⟩
      · rw [eq_of_afterStart? hu, ← hsplit, mark]
        simp
      · rw [← hd] at hc
        exact List.all_eq_true.1 (List.all_takeWhile (p := isDecimalDigit)) c hc
    · cases h
  · rintro ⟨rfl, hne, hds⟩
    have hstart : afterStart? markStart (mark ds ++ rest) = some (ds ++ ')' :: rest) := by
      simp [afterStart?, mark, List.append_assoc]
    have hstop : isDecimalDigit ')' = false := by decide
    have htake : (ds ++ ')' :: rest).takeWhile isDecimalDigit = ds := by
      rw [List.takeWhile_append_of_pos hds, List.takeWhile_cons_of_neg (by simp [hstop])]
      simp
    have hdrop : (ds ++ ')' :: rest).dropWhile isDecimalDigit = ')' :: rest := by
      rw [List.dropWhile_append_of_pos hds, List.dropWhile_cons_of_neg (by simp [hstop])]
    simp only [splitMark?, hstart, Option.bind_some, htake, hdrop]
    obtain ⟨d, ds', rfl⟩ := List.exists_cons_of_ne_nil hne
    rfl

theorem isDecimalDigit_of_isDigit {c : Char} (h : c.isDigit = true) : isDecimalDigit c = true := by
  have h : (decide (c.val ≥ 48) && decide (c.val ≤ 57)) = true := h
  simp only [Bool.and_eq_true, decide_eq_true_eq] at h
  have h₁ : 48 ≤ c.toNat := UInt32.le_iff_toNat_le.1 h.1
  have h₂ : c.toNat ≤ 57 := UInt32.le_iff_toNat_le.1 h.2
  refine List.any_eq_true.2 ⟨(0x30, 0x39), List.mem_cons_self, ?_⟩
  simp [h₁, h₂]

/-- Digits with a count make a mark. -/
theorem splitMark?_mark {ds : List Char} {n : Nat} (h : count? ds = some n) (rest : List Char) :
    splitMark? (mark ds ++ rest) = some (ds, rest) := by
  obtain ⟨h, -⟩ := Option.filter_eq_some_iff.1 h
  unfold readNat? at h
  split at h
  · rename_i hds
    refine splitMark?_eq_some_iff.2 ⟨rfl, hds.1, fun d hd => ?_⟩
    exact isDecimalDigit_of_isDigit (List.all_eq_true.1 hds.2 d hd)
  · cases h

/-- The blanks before a mark and its digits are told by the text. -/
theorem eq_of_blanks_append_mark {blanks blanks' ds ds' r r' : List Char} {n n' : Nat}
    (hb : ∀ c ∈ blanks, isAsciiBlank c = true) (hb' : ∀ c ∈ blanks', isAsciiBlank c = true)
    (hn : count? ds = some n) (hn' : count? ds' = some n')
    (h : blanks ++ (mark ds ++ r) = blanks' ++ (mark ds' ++ r')) :
    blanks = blanks' ∧ ds = ds' ∧ r = r' := by
  have htake : ∀ {bs es s : List Char}, (∀ c ∈ bs, isAsciiBlank c = true) →
      (bs ++ (mark es ++ s)).takeWhile isAsciiBlank = bs := by
    intro bs es s hbs
    have hat : mark es ++ s = '@' :: (mark es ++ s).tail := rfl
    rw [List.takeWhile_append_of_pos hbs, hat, List.takeWhile_cons_of_neg (by decide),
      List.append_nil]
  have hblanks : blanks = blanks' := by
    rw [← htake hb, h, htake hb']
  subst hblanks
  have hmark := congrArg splitMark? (List.append_cancel_left h)
  rw [splitMark?_mark hn, splitMark?_mark hn'] at hmark
  cases hmark
  exact ⟨rfl, rfl, rfl⟩

/-- No mark has the character in it. -/
def OutsideMarks (c : Char) : Prop :=
  ∀ ds : List Char, (∀ d ∈ ds, isDecimalDigit d = true) → c ∉ mark ds

theorem outsideMarks_of_notMem {c : Char} (hstart : c ∉ markStart)
    (hdigit : isDecimalDigit c = false) (hend : c ≠ ')') : OutsideMarks c := by
  intro ds hds hm
  simp only [mark, List.mem_append, List.mem_singleton] at hm
  rcases hm with (hm | hm) | hm
  · exact hstart hm
  · rw [hds c hm] at hdigit
    cases hdigit
  · exact hend hm

theorem outsideMarks_quote : OutsideMarks '"' :=
  outsideMarks_of_notMem (by decide) (by decide) (by decide)

/-- A list that begins with a list without `c` has it before its first `c`. -/
theorem eq_append_of_append_eq {α : Type} {c : α} {m : List α} (hc : c ∉ m) :
    ∀ {s u r : List α}, s ++ c :: u = m ++ r → ∃ v, s = m ++ v := by
  intro s u r h
  rcases List.append_eq_append_iff.1 h with ⟨v, hv, hr⟩ | ⟨v, hv, -⟩
  · cases v with
    | nil => exact ⟨[], by simpa using hv.symm⟩
    | cons d v =>
      simp only [List.cons_append, List.cons.injEq] at hr
      exact absurd (by simp [hv, hr.1]) hc
  · exact ⟨v, hv⟩

theorem splitMark?_append {t ds rest : List Char} (h : splitMark? t = some (ds, rest))
    (u : List Char) : splitMark? (t ++ u) = some (ds, rest ++ u) := by
  obtain ⟨rfl, hds⟩ := splitMark?_eq_some_iff.1 h
  exact splitMark?_eq_some_iff.2 ⟨by simp, hds⟩

theorem splitMark?_eq_none_of_append {t u : List Char} (h : splitMark? (t ++ u) = none) :
    splitMark? t = none := by
  cases hs : splitMark? t with
  | none => rfl
  | some r =>
    obtain ⟨ds, rest⟩ := r
    rw [splitMark?_append hs u] at h
    cases h

/-- A mark does not reach beyond a character that no mark has in it. -/
theorem splitMark?_eq_none_of_outside {c : Char} (hc : OutsideMarks c) {t : List Char}
    (h : splitMark? t = none) (u : List Char) : splitMark? (t ++ c :: u) = none := by
  cases hs : splitMark? (t ++ c :: u) with
  | none => rfl
  | some r =>
    obtain ⟨ds, rest⟩ := r
    obtain ⟨ht, hds⟩ := splitMark?_eq_some_iff.1 hs
    obtain ⟨v, rfl⟩ := eq_append_of_append_eq (hc ds hds.2) ht
    rw [splitMark?_eq_some_iff.2 ⟨rfl, hds⟩] at h
    cases h

theorem splitMark?_eq_none_of_head {c : Char} {t : List Char} (h : c ≠ '@') :
    splitMark? (c :: t) = none := by
  cases hs : splitMark? (c :: t) with
  | none => rfl
  | some r =>
    obtain ⟨ds, rest⟩ := r
    obtain ⟨ht, -⟩ := splitMark?_eq_some_iff.1 hs
    rw [mark, markStart_eq] at ht
    exact absurd (List.cons.inj ht).1 h

/-- No mark begins within a text when `after` follows it. -/
def MarklessBefore : List Char → (after : List Char) → Prop
  | [], _ => True
  | c :: t, after => splitMark? (c :: t ++ after) = none ∧ MarklessBefore t after

def Markless (t : List Char) : Prop :=
  MarklessBefore t []

theorem marklessBefore_append {after : List Char} : ∀ {s t : List Char},
    MarklessBefore (s ++ t) after ↔ MarklessBefore s (t ++ after) ∧ MarklessBefore t after
  | [], t => by simp [MarklessBefore]
  | c :: s, t => by
    simp only [List.cons_append, MarklessBefore, marklessBefore_append (s := s), and_assoc,
      List.append_assoc]

theorem MarklessBefore.markless {after : List Char} : ∀ {t : List Char},
    MarklessBefore t after → Markless t
  | [], _ => trivial
  | _ :: _, ⟨h, ht⟩ =>
    ⟨by rw [List.append_nil]; exact splitMark?_eq_none_of_append h, ht.markless⟩

theorem Markless.before_outside {d : Char} (hd : OutsideMarks d) (after : List Char) :
    ∀ {t : List Char}, Markless t → MarklessBefore t (d :: after)
  | [], _ => trivial
  | c :: t, ⟨h, ht⟩ => by
    rw [List.append_nil] at h
    exact ⟨splitMark?_eq_none_of_outside hd h after, before_outside hd after ht⟩

/-- A text without marks has no mark among its parts. -/
theorem markless_iff {t : List Char} : Markless t ↔
    ∀ ds, ds ≠ [] → (∀ d ∈ ds, isDecimalDigit d = true) → ¬ mark ds <:+: t := by
  induction t with
  | nil =>
    refine ⟨fun _ ds _ _ h => ?_, fun _ => trivial⟩
    have := congrArg List.length (List.eq_nil_of_infix_nil h)
    simp [mark] at this
  | cons c t ih =>
    rw [Markless, MarklessBefore, List.append_nil]
    constructor
    · rintro ⟨hnone, ht⟩ ds hne hds h
      rcases List.infix_cons_iff.1 h with ⟨rest, hrest⟩ | h
      · rw [splitMark?_eq_some_iff.2 ⟨hrest.symm, hne, hds⟩] at hnone
        cases hnone
      · exact ih.1 ht ds hne hds h
    · intro h
      refine ⟨?_, ih.2 fun ds hne hds hi => h ds hne hds (List.infix_cons_iff.2 (.inr hi))⟩
      cases hs : splitMark? (c :: t) with
      | none => rfl
      | some r =>
        obtain ⟨ds, rest⟩ := r
        obtain ⟨ht, hne, hds⟩ := splitMark?_eq_some_iff.1 hs
        exact absurd ⟨[], rest, ht.symm⟩ (h ds hne hds)

theorem marklessBefore_of_notMem (after : List Char) : ∀ {t : List Char},
    '@' ∉ t → MarklessBefore t after
  | [], _ => trivial
  | c :: t, h => by
    rw [List.mem_cons, not_or] at h
    exact ⟨splitMark?_eq_none_of_head (Ne.symm h.1), marklessBefore_of_notMem after h.2⟩

/-! ## Extraction -/

theorem splitBracket?_append {before template rest : List Char} : ∀ {depth : Nat}
    {taken : List Char}, splitBracket? depth taken before = some (template, rest) →
      rest.reverse ++ template = before.reverse ++ taken := by
  induction before with
  | nil =>
    intro depth taken h
    cases h
  | cons c before ih =>
    intro depth taken h
    simp only [splitBracket?] at h
    split at h
    · simpa using ih h
    · split at h
      · split at h
        · cases h
          simp
        · simpa using ih h
      · simpa using ih h

/-- The array, with the blanks after it, is the end of the text. -/
theorem splitArray?_append {before template rest : List Char}
    (h : splitArray? before = some (template, rest)) :
    ∃ blanks, before.reverse = rest.reverse ++ template ++ blanks := by
  refine ⟨(before.takeWhile isAsciiBlank).reverse, ?_⟩
  unfold splitArray? at h
  split at h
  · rename_i u hu
    have hb := List.takeWhile_append_dropWhile (p := isAsciiBlank) (l := before)
    rw [hu] at hb
    rw [splitBracket?_append h, ← congrArg List.reverse hb]
    simp
  · cases h

theorem splitBracket?_head {before template rest : List Char} : ∀ {depth : Nat}
    {taken : List Char}, splitBracket? depth taken before = some (template, rest) →
      ∃ u, template = '[' :: (u ++ taken) := by
  induction before with
  | nil =>
    intro depth taken h
    cases h
  | cons c before ih =>
    intro depth taken h
    have hcons : ∀ {depth : Nat}, splitBracket? depth (c :: taken) before = some (template, rest) →
        ∃ u, template = '[' :: (u ++ taken) := by
      intro depth h
      obtain ⟨u, rfl⟩ := ih h
      exact ⟨u ++ [c], by simp⟩
    simp only [splitBracket?] at h
    split at h
    · exact hcons h
    · split at h
      · rename_i hc
        split at h
        · cases h
          exact ⟨[], by rw [hc]; rfl⟩
        · exact hcons h
      · exact hcons h

/-- An array begins and ends with its brackets. -/
theorem splitArray?_brackets {before template rest : List Char}
    (h : splitArray? before = some (template, rest)) : ∃ u, template = '[' :: (u ++ [']']) := by
  unfold splitArray? at h
  split at h
  · exact splitBracket?_head h
  · cases h

theorem marklessBefore_quoted_ofBlock (n : Nat) (after : List Char) :
    MarklessBefore ('"' :: (Placeholder.ofBlock (Placeholder.blockName n)).toList ++ ['"'])
      after := by
  refine marklessBefore_of_notMem after fun h => ?_
  rw [List.cons_append, List.mem_cons, List.mem_append, List.mem_singleton] at h
  rcases h with h | h | h
  · cases h
  · exact absurd (Placeholder.isNameChar_of_mem_ofBlock h) (by decide)
  · cases h

/-- Where an array ends before the first mark, there is no mark in the array, and none begins before
`rest` when a placeholder stands for it. -/
theorem MarklessBefore.replaced {before after template front : List Char}
    (h : MarklessBefore before.reverse after) (ha : splitArray? before = some (template, front))
    (n : Nat) (rest : List Char) :
    Markless template ∧ MarklessBefore (front.reverse
      ++ ('"' :: (Placeholder.ofBlock (Placeholder.blockName n)).toList ++ ['"'])) rest := by
  obtain ⟨blanks, hb⟩ := splitArray?_append ha
  rw [hb, marklessBefore_append, marklessBefore_append] at h
  obtain ⟨⟨hfront, htemplate⟩, -⟩ := h
  exact ⟨htemplate.markless,
    marklessBefore_append.2 ⟨hfront.markless.before_outside outsideMarks_quote _,
      marklessBefore_quoted_ofBlock n rest⟩⟩

/-- What is true of the placeholders stays true, if it does where a block without marks is
recorded. -/
theorem extractFrom_induction {P : Placeholders → Prop}
    (hP : ∀ p template count, P p → Markless template →
      P (p.recordBlock ⟨String.ofList template, count⟩).2)
    (before after : List Char) (p : Placeholders) (h : MarklessBefore before.reverse after)
    (hp : P p) : P (extractFrom before after p).2 := by
  fun_induction extractFrom before after p with
  | case1 before p => exact hp
  | case2 before p c t hm ih =>
    refine ih ?_ hp
    rw [List.reverse_cons, marklessBefore_append]
    exact ⟨h, by simpa [MarklessBefore] using hm⟩
  | case3 before p c t ds rest hm count template before' ha hc placeholder p' heq ih =>
    obtain ⟨htemplate, hfront⟩ := h.replaced ha p.nextBlock rest
    cases heq
    refine ih ?_ (hP p template count hp htemplate)
    simpa using hfront
  | case4 => exact hp

/-- A part in which no mark begins is passed over. -/
theorem extractFrom_append {rest : List Char} (p : Placeholders) : ∀ (before : List Char)
    {t : List Char}, MarklessBefore t rest →
      extractFrom before (t ++ rest) p = extractFrom (t.reverse ++ before) rest p
  | before, [], _ => rfl
  | before, c :: t, ⟨h, ht⟩ => by
    rw [List.cons_append, extractFrom]
    split
    · rw [extractFrom_append p (c :: before) ht]
      simp
    · rename_i hs
      rw [← List.cons_append, h] at hs
      cases hs

/-- A text without marks stays as it is, and nothing is recorded. -/
theorem extract_of_markless {t : List Char} (h : Markless t) (p : Placeholders) :
    extract t p = (t, p) := by
  have := extractFrom_append p [] h
  rw [List.append_nil, List.append_nil, extractFrom, List.reverse_reverse] at this
  exact this

/-- At a mark the search goes on behind a placeholder for the array before it, or ends there. -/
theorem extractFrom_of_splitMark? {t ds rest : List Char} (h : splitMark? t = some (ds, rest))
    (before : List Char) (p : Placeholders) :
    extractFrom before t p = match count? ds, splitArray? before with
      | some count, some (template, front) =>
        let (placeholder, p) := p.recordBlock ⟨String.ofList template, count⟩
        extractFrom ('"' :: placeholder.toList.reverse ++ '"' :: front) rest p
      | _, _ => (before.reverse ++ t, p) := by
  cases t with
  | nil => cases h
  | cons c t =>
    rw [extractFrom]
    split
    · rename_i hnone
      rw [h] at hnone
      cases hnone
    · rename_i hsome
      rw [h] at hsome
      cases hsome
      rfl

/-! ## Starting over -/

/-- Looks for the first mark, and gives the reversed text to its left, its digits and what follows
it; `before` is the reversed text that has been passed over. -/
def firstMark? (before : List Char) : List Char → Option (List Char × List Char × List Char)
  | [] => none
  | c :: t =>
    match splitMark? (c :: t) with
    | some (ds, rest) => some (before, ds, rest)
    | none => firstMark? (c :: before) t

/-- Replaces the block at the first mark of a text, if the mark has a count and follows an array. -/
def replaceFirst? (t : List Char) (p : Placeholders) : Option (List Char × Placeholders) :=
  (firstMark? [] t).bind fun (before, ds, rest) =>
    (count? ds).bind fun count =>
      (splitArray? before).map fun (template, front) =>
        let (placeholder, p) := p.recordBlock ⟨String.ofList template, count⟩
        (front.reverse ++ ('"' :: placeholder.toList ++ ['"']) ++ rest, p)

theorem firstMark?_eq_none {t : List Char} : ∀ {before : List Char},
    firstMark? before t = none → Markless t := by
  induction t with
  | nil => exact fun _ => trivial
  | cons c t ih =>
    intro before h
    rw [firstMark?] at h
    split at h
    · cases h
    · rename_i hs
      exact ⟨by rwa [List.append_nil], ih h⟩

theorem firstMark?_eq_some {t before' ds rest : List Char} : ∀ {before : List Char},
    firstMark? before t = some (before', ds, rest) →
      ∃ u c v, t = u ++ c :: v ∧ before' = u.reverse ++ before ∧ MarklessBefore u (c :: v)
        ∧ splitMark? (c :: v) = some (ds, rest) := by
  induction t with
  | nil =>
    intro before h
    cases h
  | cons c t ih =>
    intro before h
    rw [firstMark?] at h
    split at h
    · rename_i hs
      cases h
      exact ⟨[], c, t, rfl, rfl, trivial, hs⟩
    · rename_i hs
      obtain ⟨u, d, v, rfl, rfl, hu, hv⟩ := ih h
      exact ⟨c :: u, d, v, rfl, by simp, ⟨hs, hu⟩, hv⟩

/-- The block of the first mark is replaced, and the text that comes of it is searched anew from its
start, until there is nothing to replace. -/
theorem extract_eq_replaceFirst? (t : List Char) (p : Placeholders) :
    extract t p = match replaceFirst? t p with
      | some (t, p) => extract t p
      | none => (t, p) := by
  rw [replaceFirst?]
  cases hfirst : firstMark? [] t with
  | none => exact extract_of_markless (firstMark?_eq_none hfirst) p
  | some r =>
    obtain ⟨before, ds, rest⟩ := r
    obtain ⟨u, c, v, rfl, rfl, hu, hv⟩ := firstMark?_eq_some hfirst
    rw [extract, extractFrom_append p [] hu, List.append_nil, Option.bind_some,
      extractFrom_of_splitMark? hv]
    dsimp only
    cases count? ds with
    | none => simp
    | some count =>
      rw [Option.bind_some]
      cases ha : splitArray? u.reverse with
      | none => simp
      | some r =>
        obtain ⟨template, front⟩ := r
        rw [← List.reverse_reverse u] at hu
        obtain ⟨-, hfront⟩ := hu.replaced ha p.nextBlock rest
        have hpassed := extractFrom_append
          (p.recordBlock ⟨String.ofList template, count⟩).2 [] hfront
        simpa [Placeholders.recordBlock, extract] using hpassed.symm

end JsonTemplate.RepeatBlock
