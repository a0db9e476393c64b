import JsonTemplate.Bytewise.Plan
import JsonTemplate.Proofs.BlockBytes
import JsonTemplate.Proofs.PartBytes
import JsonTemplate.Proofs.Scanning
import JsonTemplate.Proofs.Surroundings

/-!
# Offsets

A root begins at the first delimiter and ends one byte after the last one, which are places; a
repeat mark takes what its text and the blanks before it have of bytes. So plans are made in place
too, and no work with offsets ever breaks off: it gives what the same work on the characters gives
(`offsets_in_place`).
-/

namespace JsonTemplate.Bytewise

open Text

/-! ## What work does not break off -/

theorem exists_minus_iff {m n : Nat} : (∃ k, minus m n = pure k) ↔ n ≤ m := by
  refine ⟨fun ⟨k, h⟩ => ?_, fun h => ⟨m - n, minus_eq h⟩⟩
  by_contra hlt
  rw [minus, if_neg hlt] at h
  cases h

theorem exists_byteAt_iff {t : List Char} {pos : Nat} :
    (∃ c, byteAt t pos = pure c) ↔ pos < utf8Length t := by
  simp only [byteAt, orFault_eq_pure_iff, Option.map_eq_some_iff, ← length_bytes]
  constructor
  · rintro ⟨-, b, hb, -⟩
    exact (List.getElem?_eq_some_iff.1 hb).1
  · intro h
    exact ⟨_, _, List.getElem?_eq_getElem h, rfl⟩

/-! ## Delimiters -/

/-- Any other character moves the offsets of both delimiters alike. -/
theorem findRoot?_cons {c : Char} (hbrace : c ≠ '\x7b') (hbracket : c ≠ '[') (t : List Char) :
    findRoot? (c :: t) = (findRoot? t).map fun (container, start) =>
      (container, c.utf8Size + start) := by
  rw [findRoot?, findRoot?, offsetOf?, offsetOf?, if_neg hbrace, if_neg hbracket]
  cases offsetOf? '\x7b' t with
  | none => cases offsetOf? '[' t <;> rfl
  | some brace =>
    cases offsetOf? '[' t with
    | none => rfl
    | some bracket =>
      dsimp only [Option.map_some]
      by_cases hlt : bracket < brace
      · rw [if_pos hlt, if_pos (Nat.add_lt_add_left hlt _)]
        rfl
      · rw [if_neg hlt, if_neg (by omega)]
        rfl

/-- Whichever opening delimiter has the smaller offset comes first. -/
theorem findRoot?_eq (t : List Char) :
    findRoot? t = (Root.find? t).map fun r => (r.container, r.offset) := by
  induction t with
  | nil => rfl
  | cons c t ih =>
    rw [Root.find?, Container.ofOpening?]
    by_cases hbrace : c = '\x7b'
    · subst hbrace
      rw [if_pos rfl, findRoot?, offsetOf?, offsetOf?, if_pos rfl, if_neg (by decide)]
      cases offsetOf? '[' t <;> rfl
    · by_cases hbracket : c = '['
      · subst hbracket
        rw [if_neg hbrace, if_pos rfl, findRoot?, offsetOf?, offsetOf?, if_neg hbrace, if_pos rfl]
        cases offsetOf? '\x7b' t with
        | none => rfl
        | some brace =>
          have hlt : 0 < '['.utf8Size + brace :=
            Nat.lt_of_lt_of_le (Char.utf8Size_pos _) (Nat.le_add_right _ _)
          dsimp only [Option.map_some]
          rw [if_pos hlt]
          rfl
      · rw [if_neg hbrace, if_neg hbracket, findRoot?_cons hbrace hbracket, ih]
        dsimp only
        rw [Option.map_map, Option.map_map]
        rfl

theorem lastOffsetOf?_of_notMem {c : Char} {t : List Char} (h : c ∉ t) :
    lastOffsetOf? c t = none := by
  induction t with
  | nil => rfl
  | cons d t ih =>
    rw [List.mem_cons, not_or] at h
    rw [lastOffsetOf?, ih h.2]
    exact if_neg (Ne.symm h.1)

theorem lastOffsetOf?_append_cons {c : Char} {v : List Char} (h : c ∉ v) (u : List Char) :
    lastOffsetOf? c (u ++ c :: v) = some (utf8Length u) := by
  induction u with
  | nil =>
    rw [List.nil_append, lastOffsetOf?, lastOffsetOf?_of_notMem h]
    exact if_pos rfl
  | cons d u ih =>
    rw [List.cons_append, lastOffsetOf?, ih]
    rfl

section RootEnd

variable {before u text : List Char} {container : Container}

/-- A delimiter before the root closes nothing. -/
theorem rootEnd_of_notMem (h : container.closing ∉ text) :
    rootEnd (before ++ text) container (utf8Length before)
      = utf8Length before + utf8Length text := by
  rw [← utf8Length_append, rootEnd]
  rcases Root.splitAfterLast_cases container.closing before with ⟨hno, -⟩ | ⟨v, w, hw, rfl, -⟩
  · rw [lastOffsetOf?_of_notMem (by rw [List.mem_append, not_or]; exact ⟨hno, h⟩)]
  · have hafter : container.closing ∉ w ++ text := by
      rw [List.mem_append, not_or]
      exact ⟨hw, h⟩
    have hle : ¬ utf8Length (v ++ container.closing :: w) < utf8Length v := by
      rw [utf8Length_append]
      omega
    rw [List.append_assoc, List.cons_append, lastOffsetOf?_append_cons hafter]
    exact if_neg hle

theorem rootEnd_append_cons (hu : u ≠ []) (h : container.closing ∉ text) :
    rootEnd (before ++ (u ++ container.closing :: text)) container (utf8Length before)
      = utf8Length before + utf8Length (u ++ [container.closing]) := by
  have hlt : utf8Length before < utf8Length (before ++ u) := by
    obtain ⟨c, u, rfl⟩ := List.exists_cons_of_ne_nil hu
    rw [utf8Length_append]
    exact Nat.lt_add_of_pos_right (utf8Length_cons_pos c u)
  have hsize : utf8Length [container.closing] = 1 := by
    cases container <;> rfl
  rw [← List.append_assoc, rootEnd, lastOffsetOf?_append_cons h]
  dsimp only
  rw [if_pos hlt, utf8Length_append, utf8Length_append, hsize, Nat.add_assoc]

/-- A root ends after the delimiter that closes it last. -/
theorem rootEnd_eq {t : List Char} {r : Root} (h : Root.find? t = some r) :
    rootEnd t r.container r.offset = r.offset + utf8Length r.split.1 := by
  obtain ⟨ht, -, c, u, htext, hc⟩ := Root.exists_of_find? h
  rw [ht, Root.split]
  rcases Root.splitAfterLast_cases r.container.closing r.text with ⟨hno, hs⟩ | ⟨v, w, hw, hv, hs⟩
  · rw [hs]
    exact rootEnd_of_notMem hno
  · have hne : v ≠ [] := by
      rintro rfl
      rw [hv] at htext
      exact absurd (List.cons.inj htext).1.symm (Container.ne_closing hc)
    rw [hs, hv]
    exact rootEnd_append_cons hne hw

end RootEnd

theorem at_root {t : List Char} {r : Root} (h : Root.find? t = some r) :
    At t r.offset (r.split.1 ++ r.split.2) :=
  ⟨r.before, by rw [Root.split, Root.splitAfterLast_append]; exact (Root.exists_of_find? h).1, rfl⟩

/-! ## Plans -/

/-- The mark takes all the bytes that the text has more than the text after the mark. -/
theorem headMark?_eq (t : List Char) : headMark? t = pure ((JsonTemplate.headMark? t).map
    fun (count, rest) => (count, utf8Length t - utf8Length rest)) := by
  rw [headMark?, JsonTemplate.headMark?]
  cases hs : RepeatBlock.splitMark? (trimStart t) with
  | none => rfl
  | some r =>
    obtain ⟨ds, rest⟩ := r
    dsimp only [Option.bind_some]
    cases RepeatBlock.count? ds with
    | none => rfl
    | some count =>
      have htrim : utf8Length (trimStart t) = markLength ds + utf8Length rest := by
        rw [(RepeatBlock.splitMark?_eq_some_iff.1 hs).1, utf8Length_append, utf8Length_mark]
      have hle : utf8Length (trimStart t) ≤ utf8Length t := by
        have h := ((At.start t).dropWhile isBlank).utf8Length_eq
        rw [trimStart]
        omega
      have hlength : utf8Length t - utf8Length (trimStart t) + markLength ds
          = utf8Length t - utf8Length rest := by omega
      dsimp only [Option.map_some]
      rw [minus_eq hle, pure_bind, hlength]

theorem plan?_eq (t : List Char) : plan? t = pure (Plan.ofText? t) := by
  rw [plan?, findRoot?_eq, Plan.ofText?]
  cases h : Root.find? t with
  | none => rfl
  | some r =>
    have hat := at_root h
    dsimp only [Option.map_some]
    rw [rootEnd_eq h, hat.slice, pure_bind, hat.append.remaining, pure_bind, headMark?_eq,
      pure_bind]
    cases r.container with
    | object => rfl
    | array => cases JsonTemplate.headMark? r.split.2 <;> rfl

theorem writtenTemplate?_eq (t : List Char) :
    writtenTemplate? t = pure (JsonTemplate.writtenTemplate? t) := by
  rw [writtenTemplate?, findRoot?_eq, JsonTemplate.writtenTemplate?]
  cases h : Root.find? t with
  | none => rfl
  | some r =>
    have hat := at_root h
    dsimp only [Option.map_some]
    rw [rootEnd_eq h, hat.append.remaining, pure_bind, headMark?_eq, pure_bind]
    cases hm : JsonTemplate.headMark? r.split.2 with
    | none =>
      dsimp only [Option.map_none]
      rw [hat.slice, pure_bind]
    | some m =>
      obtain ⟨count, rest⟩ := m
      obtain ⟨mark, hafter, -⟩ := exists_eq_append_of_headMark? hm
      have hmark : At t r.offset (r.split.1 ++ mark ++ rest) := by
        rwa [hafter, ← List.append_assoc] at hat
      have htake : r.split.2.take (r.split.2.length - rest.length) = mark := by
        rw [hafter, List.length_append, Nat.add_sub_cancel, List.take_left]
      have hlength : r.offset + utf8Length r.split.1 + (utf8Length r.split.2 - utf8Length rest)
          = r.offset + utf8Length (r.split.1 ++ mark) := by
        rw [hafter, utf8Length_append, utf8Length_append, Nat.add_sub_cancel, Nat.add_assoc]
      dsimp only [Option.map_some]
      rw [hlength, hmark.slice, pure_bind, htake]

/-! ## All work in place -/

/-- Work that cuts a text breaks off unless it does so at two places of it and in order, as does
work that reads a byte past the end or takes off more than there is. Repeat blocks are extracted,
arrays found, chains quoted, expressions cut and parsed and plans made by offsets without ever
breaking off: for every text each of these returns, and what it returns is what the work on the
characters gives. -/
theorem offsets_in_place :
    (∀ t start stop, (∃ m, slice t start stop = pure m) ↔ InPlace t start stop)
      ∧ (∀ t pos, (∃ c, byteAt t pos = pure c) ↔ pos < utf8Length t)
      ∧ (∀ m n, (∃ k, minus m n = pure k) ↔ n ≤ m)
      ∧ (∀ t p, extract t p = pure (RepeatBlock.extract t p))
      ∧ (∀ before after, arrayBefore (before.reverse ++ after) (utf8Length before)
        = pure ((RepeatBlock.splitArray? before).map fun (template, front) =>
          (utf8Length front, utf8Length front + (utf8Length template - 1))))
      ∧ (∀ t p, quoteChains t p = pure (JsonTemplate.quoteChains t p))
      ∧ (∀ t, splitAtSigns t = pure (JsonTemplate.splitAtSigns t))
      ∧ (∀ t, parseSegment t = pure (Segment.parse t))
      ∧ (∀ t, parse t = pure (Expression.parse t))
      ∧ (∀ t, headMark? t = pure ((JsonTemplate.headMark? t).map
        fun (count, rest) => (count, utf8Length t - utf8Length rest)))
      ∧ (∀ t, plan? t = pure (Plan.ofText? t))
      ∧ (∀ t, writtenTemplate? t = pure (JsonTemplate.writtenTemplate? t)) :=
  ⟨fun _ _ _ => exists_slice_iff, fun _ _ => exists_byteAt_iff, fun _ _ => exists_minus_iff,
    extract_eq, arrayBefore_eq, quoteChains_eq, splitAtSigns_eq, parseSegment_eq, parse_eq,
    headMark?_eq, plan?_eq, writtenTemplate?_eq⟩

end JsonTemplate.Bytewise
