import JsonTemplate.Proofs.Joining
import JsonTemplate.Proofs.Registry
import JsonTemplate.Proofs.Run
import JsonTemplate.Proofs.Segments
import JsonTemplate.ValueSource.Journal

/-!
# Strings without directives

The evaluation of a string none of whose segments is a directive asks nothing and reports nothing.
It gives the string itself exactly when the string has no sign of a directive or is one segment
(`expandValue_undirected_iff`). Any other string is joined from the words of its segments, which
are shorter than the string, as the signs between them are lost (`Expression.length_joined_lt`).
-/

namespace JsonTemplate

open Text

/-! ## Lengths -/

namespace Json

open ReaderState

/-- A step within a string reads no more than one character. -/
theorem length_of_stringStep {read read' : List Char} {part part' : StringPart} {c : Char}
    (h : stringStep read part c = .ok (read', part')) : read'.length ≤ read.length + 1 := by
  cases stringSteps_of_stringStep h with
  | plain | escaped | char | low => exact Nat.le_refl _
  | backslash | code | digit | high | pairBackslash | pairLetter => exact Nat.le_succ _

theorem length_of_spelled? : ∀ {t read x : List Char} {part : StringPart},
    spelled? read part t = some x → x.length ≤ read.length + t.length
  | [], _, _, _, h => by cases h
  | c :: t, read, x, part, h => by
    obtain ⟨-, -, rfl, rfl⟩ | ⟨read', part', -, hs, h⟩ := spelled?_cons_eq_some h
    · exact Nat.le_add_right _ _
    · have hstep := length_of_stringStep hs
      have hrest := length_of_spelled? h
      rw [List.length_cons]
      omega

/-- A string is no longer than its literal. -/
theorem length_le_of_read {t : List Char} {s : String}
    (h : Json.read ('"' :: t) = .ok (.string s)) : s.toList.length ≤ t.length := by
  obtain ⟨x, hx, rfl, -⟩ := exists_spelled?_of_read h
  have hlength := congrArg List.length (Operand.splitQuoted_append false t)
  have hspelled := length_of_spelled? hx
  simp only [List.length_append, List.length_nil] at hlength hspelled
  rw [String.toList_ofList, List.length_reverse]
  omega

end Json

namespace Segment

theorem length_decode_le {t inner : List Char} (h : unquote? '"' t = some inner) :
    (decode t inner).toList.length ≤ t.length := by
  unfold decode
  split
  · rename_i s hs
    obtain ⟨u, rfl⟩ := exists_eq_of_unquote? h
    exact Nat.le_succ_of_le (Json.length_le_of_read hs)
  · rw [String.toList_ofList]
    exact (unquote?_isInfix h).length_le

/-- The word of a segment is no longer than its text. -/
theorem length_word_parse_le (t : List Char) : (parse t).word.length ≤ t.length := by
  unfold parse
  split
  · rename_i rest
    rw [word]
    cases hd : Directive.parse? ('@' :: rest) with
    | some d => exact (Directive.path_infix_of_parse? hd).length_le
    | none => simp [Directive.ofName, Directive.path]
  · split
    · rename_i h
      exact length_decode_le h
    · split
      · rename_i h
        simpa [word] using (unquote?_isInfix h).length_le
      · simp [word]

def isDirective : Segment → Bool
  | .directive _ => true
  | _ => false

end Segment

namespace Expression

/-- The words of the segments, one after the other. -/
def joined (t : List Char) : List Char :=
  (parse t).flatMap Segment.word

/-- No segment is a directive. -/
def Undirected (t : List Char) : Prop :=
  ∀ segment ∈ parse t, segment.isDirective = false

instance : DecidablePred Undirected :=
  fun t => inferInstanceAs (Decidable (∀ segment ∈ parse t, segment.isDirective = false))

theorem length_flatMap_word_le : ∀ parts : List (List Char),
    ((parts.map fun part => Segment.parse (trim part)).flatMap Segment.word).length + parts.length
      ≤ (['+'].intercalate parts).length + 1
  | [] => by simp
  | [part] => by
    have hword := Segment.length_word_parse_le (trim part)
    have htrim := (trim_isInfix part).length_le
    simp
    omega
  | part :: next :: rest => by
    have ih := length_flatMap_word_le (next :: rest)
    have hword := Segment.length_word_parse_le (trim part)
    have htrim := (trim_isInfix part).length_le
    have hcut : (['+'].intercalate (part :: next :: rest)).length
        = part.length + 1 + (['+'].intercalate (next :: rest)).length := by
      simp [List.intercalate]
      omega
    simp only [List.map_cons, List.flatMap_cons, List.length_append, List.length_cons] at ih ⊢
    omega

/-- Joined segments are shorter than their text. -/
theorem length_joined_lt {t : List Char} (h : isJoined (parse t) = true) :
    (joined t).length < t.length := by
  have hle := length_flatMap_word_le (splitAtSigns t)
  have hparts : 1 < (splitAtSigns t).length := by
    simpa [isJoined, parse] using h
  rw [intercalate_splitAtSigns] at hle
  rw [joined, parse]
  omega

/-- A text that begins with a sign begins with a directive. -/
theorem not_undirected_sign (t : List Char) : ¬ Undirected ('@' :: t) := by
  intro h
  obtain ⟨p, ps, hsplit, -, -⟩ := splitFrom_isInfix (Cursor.top.next '@') t
  have hcut : splitAtSigns ('@' :: t) = ('@' :: p) :: ps := by
    rw [splitAtSigns, splitFrom, if_neg (by decide), hsplit]
    rfl
  obtain ⟨u, hu⟩ := trim_cons (c := '@') rfl p
  have hfirst := h (Segment.parse (trim ('@' :: p))) (by simp [parse, hcut])
  rw [hu] at hfirst
  cases hfirst

theorem plus_mem_of_isJoined {t : List Char} (h : isJoined (parse t) = true) : '+' ∈ t := by
  rw [← intercalate_splitAtSigns t]
  match hsplit : splitAtSigns t with
  | [] | [_] => simp [isJoined, parse, hsplit] at h
  | _ :: _ :: _ => simp [List.intercalate]

theorem parse_ne_nil (t : List Char) : parse t ≠ [] := by
  rw [parse, Ne, List.map_eq_nil_iff]
  exact splitFrom_ne_nil .top t

/-- What a string without directives is evaluated to. -/
def undirectedValue (x : String) : String :=
  if '@' ∈ x.toList ∧ isJoined (parse x.toList) = true then String.ofList (joined x.toList) else x

/-- The string stays if it is not taken for an expression, or is one segment. -/
theorem undirectedValue_eq_self_iff (x : String) :
    undirectedValue x = x ↔ '@' ∉ x.toList ∨ (parse x.toList).length = 1 := by
  have hparts : 0 < (parse x.toList).length := List.length_pos_iff.2 (parse_ne_nil _)
  have hjoined : isJoined (parse x.toList) = true ↔ (parse x.toList).length ≠ 1 := by
    rw [isJoined, decide_eq_true_eq]
    omega
  unfold undirectedValue
  split
  · rename_i h
    refine iff_of_false (fun hsame => ?_) (not_or.2 ⟨not_not_intro h.1, hjoined.1 h.2⟩)
    have hlt := length_joined_lt h.2
    have hlength := congrArg (fun y => y.toList.length) hsame
    simp only [String.toList_ofList] at hlength
    omega
  · rename_i h
    rw [hjoined, Classical.not_and_iff_not_or_not, Decidable.not_not] at h
    exact iff_of_true rfl h

end Expression

open Expression

/-! ## Evaluation -/

namespace Resolving

variable {σ : Type} (source : ValueSource σ)

theorem segmentTexts_of_undirected : ∀ segments : List Segment,
    (∀ segment ∈ segments, segment.isDirective = false) →
      segmentTexts source segments = pure (segments.map fun segment => String.ofList segment.word)
  | [], _ => rfl
  | .literal s :: rest, h | .verbatim s :: rest, h => by
    have hrest := segmentTexts_of_undirected rest fun g hg => h g (List.mem_cons_of_mem _ hg)
    simp [segmentTexts, segmentText, hrest, Segment.word]
  | .directive d :: rest, h => by
    cases h _ List.mem_cons_self

theorem resolveExpression_of_undirected {t : List Char} (ht : Undirected t) :
    resolveExpression source t
      = pure (.string (String.ofList (if isJoined (parse t) = true then joined t else t))) := by
  have hwords : String.join ((parse t).map fun segment => String.ofList segment.word)
      = String.ofList (joined t) := by
    rw [← String.toList_inj, String.toList_join]
    simp [joined, List.flatMap_map]
  have htexts := segmentTexts_of_undirected source _ ht
  unfold resolveExpression
  split
  · rename_i d hparse
    cases ht (.directive d) (by rw [hparse]; exact List.mem_cons_self)
  · rename_i hparse
    rw [hparse]
    rfl
  · rename_i hparts
    have hjoined : isJoined (parse t) = true := by
      match hparse : parse t with
      | [] => exact absurd hparse (parse_ne_nil t)
      | [segment] => exact absurd hparse (hparts segment)
      | _ :: _ :: _ => simp [isJoined]
    rw [htexts, pure_bind, hwords, if_pos hjoined]

/-- A string without directives has its value, whatever the source. -/
theorem resolveString_of_undirected {x : String} (hx : Undirected x.toList) :
    resolveString source x = pure (.string (undirectedValue x)) := by
  by_cases hsign : '@' ∈ x.toList
  · have htoken : Token.isToken x.toList = false := by
      rw [Bool.eq_false_iff]
      intro htoken
      obtain ⟨u, hu⟩ := Token.exists_eq_of_isToken htoken
      exact not_undirected_sign u (hu ▸ hx)
    simp only [resolveString, htoken, Bool.false_eq_true, if_false, undirectedValue, hsign,
      true_and]
    by_cases hjoined : isJoined (parse x.toList) = true
    · have hlikely : isLikely x.toList = true := by
        simp [isLikely, hsign, plus_mem_of_isJoined hjoined]
      rw [if_pos hlikely, resolveExpression_of_undirected source hx, if_pos hjoined, if_pos hjoined]
    · rw [resolveExpression_of_undirected source hx, if_neg hjoined, if_neg hjoined,
        String.ofList_toList, ite_self]
  · have hvalue : undirectedValue x = x := (undirectedValue_eq_self_iff x).2 (.inl hsign)
    rw [resolveString_of_notMem source hsign, hvalue]

end Resolving

namespace Expanding

variable {σ : Type}

theorem run_expandValue_undirected (source : ValueSource σ) {x : String}
    (hx : Undirected x.toList) {s : Session σ} (hs : s.placeholders.namedBlock? x = none) :
    (expandValue source (.string x)).run s = .ok (.string (undirectedValue x), s) := by
  rw [Template.run_expandValue, expandValueTo, Json.traverseStrings, run_expandString_of_unnamed hs,
    Resolving.resolveString_of_undirected source hx]
  rfl

/-- A string that names no block and none of whose segments is a directive asks the source nothing,
reports nothing and leaves the placeholders alone. It is left as it is exactly when it has no sign
of a directive or is a single segment. -/
theorem expandValue_undirected_iff (source : ValueSource σ) {x : String}
    (hx : Undirected x.toList) {s : Session σ} (hs : s.placeholders.namedBlock? x = none) :
    (expandValue source (.string x)).run s = .ok (.string (undirectedValue x), s)
    ∧ (∀ asked, (expandValue source.watched (.string x)).run
          ⟨⟨(s.source, asked), s.diagnostics⟩, s.placeholders⟩
        = .ok (.string (undirectedValue x), ⟨⟨(s.source, asked), s.diagnostics⟩, s.placeholders⟩))
    ∧ ((expandValue source (.string x)).run s = .ok (.string x, s)
        ↔ '@' ∉ x.toList ∨ (parse x.toList).length = 1) := by
  have hrun := run_expandValue_undirected source hx hs
  refine ⟨hrun, fun asked => run_expandValue_undirected source.watched hx hs, ?_⟩
  rw [hrun, ← undirectedValue_eq_self_iff]
  simp only [Except.ok.injEq, Prod.mk.injEq, Json.string.injEq, and_true]

/-- An address is one segment. -/
theorem expandValue_undirected_address :
    Undirected "a@b.example (see \"c+d\")".toList
      ∧ ({} : Placeholders).namedBlock? "a@b.example (see \"c+d\")" = none
      ∧ (expandValue (ValueSource.constant .null) (.string "a@b.example (see \"c+d\")")).run
          ⟨⟨(), []⟩, {}⟩
        = .ok (.string "a@b.example (see \"c+d\")", ⟨⟨(), []⟩, {}⟩) := by
  have hx : Undirected "a@b.example (see \"c+d\")".toList := by decide +kernel
  have hs : ({} : Placeholders).namedBlock? "a@b.example (see \"c+d\")" = none := by
    decide +kernel
  have hiff := (expandValue_undirected_iff (.constant .null) hx (s := ⟨⟨(), []⟩, {}⟩) hs).2.2
  exact ⟨hx, hs, hiff.2 (.inr (by decide +kernel))⟩

/-- A sign that joins is taken out of a formula, with the blanks around it. -/
theorem expandValue_undirected_formula : ¬ ∀ (x : String), Undirected x.toList →
    ∀ (σ : Type) (source : ValueSource σ) (s : Session σ), s.placeholders.namedBlock? x = none →
      (expandValue source (.string x)).run s = .ok (.string x, s) := by
  intro h
  have hx : Undirected "x@y + z".toList := by decide +kernel
  have hs : ({} : Placeholders).namedBlock? "x@y + z" = none := by decide +kernel
  have hvalue : undirectedValue "x@y + z" ≠ "x@y + z" := by decide +kernel
  have hsame := h "x@y + z" hx Unit (.constant .null) ⟨⟨(), []⟩, {}⟩ hs
  rw [run_expandValue_undirected _ hx hs] at hsame
  simp only [Except.ok.injEq, Prod.mk.injEq, Json.string.injEq, and_true] at hsame
  exact hvalue hsame

end Expanding

end JsonTemplate
