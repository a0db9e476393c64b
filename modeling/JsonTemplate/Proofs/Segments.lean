import JsonTemplate.Expression
import JsonTemplate.Proofs.Reading
import JsonTemplate.Proofs.Tokens

/-!
# Segments

An expression without escapes has the word of each of its segments written in it
(`word_infix_of_mem_parse`): a literal's text, or a directive's name and method.
-/

namespace JsonTemplate

open Text

theorem splitFrom_isInfix (s : Cursor) : ∀ t : List Char,
    ∃ p ps, splitFrom s t = p :: ps ∧ p <+: t ∧ ∀ q ∈ ps, q <:+: t
  | [] => ⟨[], [], rfl, List.prefix_rfl, fun q hq => by cases hq⟩
  | c :: t => by
    rw [splitFrom]
    split
    · obtain ⟨p, ps, hsplit, hp, hps⟩ := splitFrom_isInfix .top t
      refine ⟨[], p :: ps, by rw [hsplit], List.nil_prefix, fun q hq => ?_⟩
      refine List.IsInfix.trans ?_ (List.suffix_cons c t).isInfix
      rcases List.mem_cons.1 hq with rfl | hq
      · exact hp.isInfix
      · exact hps q hq
    · obtain ⟨p, ps, hsplit, hp, hps⟩ := splitFrom_isInfix (s.next c) t
      refine ⟨c :: p, ps, by rw [hsplit]; rfl, List.cons_prefix_cons.2 ⟨rfl, hp⟩, fun q hq => ?_⟩
      exact (hps q hq).trans (List.suffix_cons c t).isInfix

theorem infix_of_mem_splitAtSigns {t part : List Char} (h : part ∈ splitAtSigns t) :
    part <:+: t := by
  obtain ⟨p, ps, hsplit, hp, hps⟩ := splitFrom_isInfix .top t
  rw [splitAtSigns, hsplit] at h
  rcases List.mem_cons.1 h with rfl | h
  · exact hp.isInfix
  · exact hps part h

namespace Json

open ReaderState

theorem readFrom?_finished {v w : Json} : ∀ {t : List Char},
    readFrom? ⟨[], .finished v⟩ t = some w → w = v ∧ ∀ c ∈ t, isJsonBlank c = true
  | [], h => by
    cases h
    exact ⟨rfl, by simp⟩
  | c :: t, h => by
    rw [readFrom?_cons] at h
    obtain ⟨s, hs, h⟩ := Option.bind_eq_some_iff.1 h
    by_cases hc : isJsonBlank c = true
    · rw [show step ⟨[], .finished v⟩ c = .ok ⟨[], .finished v⟩ by
        simp [step, afterValue, hc]] at hs
      cases hs
      obtain ⟨hv, ht⟩ := readFrom?_finished h
      exact ⟨hv, by simpa [hc] using ht⟩
    · rw [show step ⟨[], .finished v⟩ c = refuse .trailingCharacters by
        simp [step, afterValue, hc]] at hs
      cases hs

/-- A text that is read as a string is a literal, and blanks after it. -/
theorem exists_spelled?_of_read {t : List Char} {s : String}
    (h : Json.read ('"' :: t) = .ok (.string s)) :
    ∃ x, spelled? [] .plain (Operand.splitQuoted false t).1 = some x
      ∧ s = String.ofList x.reverse
      ∧ ∀ c ∈ (Operand.splitQuoted false t).2, isJsonBlank c = true := by
  have hread := readFrom?_splitQuoted (u := (Operand.splitQuoted false t).2) (t := t) []
    .value [] .plain id
  rw [read_eq_ok_iff, readFrom?_cons] at h
  have hstart : (step .initial '"').toOption = some ⟨[], .string .value [] .plain⟩ := rfl
  rw [show isEscaping .plain = false from rfl, Operand.splitQuoted_append] at hread
  rw [hstart, Option.bind_some, hread] at h
  obtain ⟨x, hx, h⟩ := Option.bind_eq_some_iff.1 h
  obtain ⟨hs, hblank⟩ : Json.string s = .string (String.ofList x.reverse) ∧ _ :=
    readFrom?_finished h
  cases hs
  exact ⟨x, hx, rfl, hblank⟩

/-- A string without escapes is written as it is. -/
theorem infix_of_read {t : List Char} {s : String} (ht : Escapeless t)
    (h : Json.read ('"' :: t) = .ok (.string s)) : s.toList <:+: t := by
  have happ := Operand.splitQuoted_append false t
  obtain ⟨x, hx, rfl, -⟩ := exists_spelled?_of_read h
  have hno := ht.part (s := (Operand.splitQuoted false t).1) ⟨[], _, happ⟩
  obtain ⟨body, hbody, -, rfl⟩ := spelled?_of_escapeless hno hx
  refine ⟨[], '"' :: (Operand.splitQuoted false t).2, ?_⟩
  rw [hbody] at happ
  simpa using happ

end Json

namespace Segment

/-- The text of a segment, or the name and the method of its directive. -/
def word : Segment → List Char
  | .literal s => s.toList
  | .verbatim s => s.toList
  | .directive d => d.path.toList

theorem unquote?_isInfix {quote : Char} {t inner : List Char} (h : unquote? quote t = some inner) :
    inner <:+: t := by
  unfold unquote? at h
  split at h
  · cases h
    exact (List.dropLast_prefix _).isInfix.trans (List.tail_suffix t).isInfix
  · cases h

theorem exists_eq_of_unquote? {quote : Char} {t inner : List Char}
    (h : unquote? quote t = some inner) : ∃ u, t = quote :: u := by
  unfold unquote? at h
  split at h
  · rename_i hq
    exact List.head?_eq_some_iff.1 hq.2.1
  · cases h

theorem decode_isInfix {t inner : List Char} (ht : Json.Escapeless t)
    (h : unquote? '"' t = some inner) : (decode t inner).toList <:+: t := by
  unfold decode
  split
  · rename_i s hs
    obtain ⟨u, rfl⟩ := exists_eq_of_unquote? h
    have hu := (List.suffix_cons '"' u).isInfix
    exact (Json.infix_of_read (ht.part hu) hs).trans hu
  · rw [String.toList_ofList]
    exact unquote?_isInfix h

theorem word_parse_isInfix {t : List Char} (ht : Json.Escapeless t) :
    (Segment.parse t).word <:+: t := by
  unfold Segment.parse
  split
  · rename_i rest
    rw [word]
    cases hd : Directive.parse? ('@' :: rest) with
    | some d => exact Directive.path_infix_of_parse? hd
    | none =>
      rw [Option.getD_none, Directive.ofName, Directive.path, String.toList_ofList]
      exact (List.suffix_cons _ rest).isInfix
  · split
    · rename_i h
      exact decode_isInfix ht h
    · split
      · rename_i h
        simpa [word] using unquote?_isInfix h
      · simp [word]

end Segment

theorem Expression.word_infix_of_mem_parse {t : List Char} (ht : Json.Escapeless t)
    {segment : Segment} (h : segment ∈ Expression.parse t) : segment.word <:+: t := by
  obtain ⟨part, hpart, rfl⟩ := List.mem_map.1 h
  have hpart := (trim_isInfix part).trans (infix_of_mem_splitAtSigns hpart)
  exact (Segment.word_parse_isInfix (ht.part hpart)).trans hpart

end JsonTemplate
