import JsonTemplate.Expansion
import JsonTemplate.Proofs.Cutting

/-!
# What the strings of a tree resolve to

A concatenation is cut at the signs between its parts and at no other (`parse_text`), so that its
text resolves to the texts of its parts, joined. The text of a directive resolves to the directive,
and a literal's text, which has no sign, to itself.
-/

namespace JsonTemplate

open Text

variable {σ : Type}

/-! ## Segments -/

namespace Part

def segment : Part → Segment
  | .quote q => .literal q.value
  | .mention m => .directive m.directive

theorem segment?_operand (part : Part) : part.operand.segment? = some part.segment := by
  cases part with
  | quote q =>
    rw [operand, Operand.segment?, q.literalText?_text]
    rfl
  | mention m =>
    rw [operand, Operand.segment?, Directive.parse?_text m.wellFormed]
    rfl

/-- A mention has neither a quote nor a bracket in its list. -/
theorem balanced_operand (part : Part) : part.operand.Balanced := by
  cases part with
  | quote q => trivial
  | mention m =>
    have hpath := m.wellFormed.uncut_path.2
    rw [operand, Operand.Balanced, Token.text, Cursor.after_append, hpath]
    cases ha : m.arguments with
    | none => rfl
    | some a =>
      have hplain : ∀ c ∈ a, c ≠ '"' ∧ c ≠ '(' ∧ c ≠ ')' ∧ (1 = 0 → c ≠ '+') := by
        intro c hc
        refine ⟨?_, ?_, ?_, fun h => absurd h Nat.one_ne_zero⟩
        · rintro rfl
          exact m.plain a ha '"' (by decide) hc
        · rintro rfl
          exact m.plain a ha '(' (by decide) hc
        · rintro rfl
          exact m.wellFormed.arguments a ha hc
      have hinside := (Cursor.uncut_outside hplain).2
      rw [Token.argumentsText, Cursor.after_append,
        show Cursor.top.after ('(' :: a) = (Cursor.outside 1).after a from rfl, hinside]
      rfl

end Part

/-- A concatenation is cut into its parts. -/
theorem Concatenation.parse_text (c : Concatenation) :
    Expression.parse c.text = c.parts.map Part.segment := by
  have hoperands : c.first.operand :: (c.links.map fun l => l.part.operand)
      = c.parts.map Part.operand := by
    simp [parts]
  have hbalanced : ∀ o ∈ (c.parts.map Part.operand).dropLast, o.Balanced := by
    intro o ho
    obtain ⟨part, -, rfl⟩ := List.mem_map.1 (List.dropLast_subset _ ho)
    exact part.balanced_operand
  have hparse := (Link.joined c.links).parse_iff .none c.first.whole_operand
    (Link.whole_operands c.links)
  have htext : Blanks.none.val ++ (c.first.operand.text ++ c.links.flatMap Link.text) = c.text := by
    rw [c.first.text_operand]
    rfl
  have hsegments : (c.parts.map Part.operand).map Operand.segment?
      = (c.parts.map Part.segment).map some := by
    simp [Part.segment?_operand]
  rw [htext, hoperands, hsegments] at hparse
  exact (List.map_inj_right fun _ _ => Option.some.inj).1 (hparse.2 hbalanced)

/-! ## Resolving -/

open Resolving

variable (source : ValueSource σ)

theorem Part.segmentText_segment (part : Part) :
    segmentText source part.segment = part.display source := by
  cases part <;> rfl

theorem segmentTexts_segment (parts : List Part) :
    segmentTexts source (parts.map Part.segment) = parts.mapM (Part.display source) := by
  induction parts with
  | nil => rfl
  | cons part parts ih =>
    rw [List.map_cons, segmentTexts, ih, part.segmentText_segment, List.mapM_cons]

/-- A text without a sign stands for itself. -/
theorem resolveString_of_notMem {s : String} (h : '@' ∉ s.toList) :
    resolveString source s = return .string s := by
  have htoken : Token.isToken s.toList = false := by
    rw [Bool.eq_false_iff]
    intro htoken
    obtain ⟨u, hu⟩ := Token.exists_eq_of_isToken htoken
    exact h (hu ▸ List.mem_cons_self)
  have hlikely : Expression.isLikely s.toList = false := by
    simp [Expression.isLikely, h]
  simp only [resolveString, htoken, hlikely, Bool.false_eq_true, if_false]

/-- The text of a token stands for its directive. -/
theorem Token.resolveString_text {k : Token} (hk : k.WellFormed) :
    resolveString source (String.ofList k.text) = resolve source (.ofToken k) := by
  rw [resolveString, String.toList_ofList]
  simp only [isToken_text hk, if_true, Directive.parse?_text hk]

theorem Mention.resolveString_text (m : Mention) :
    resolveString source (String.ofList m.text) = resolve source m.directive :=
  Token.resolveString_text source m.wellFormed

namespace Concatenation

theorem isToken_text (c : Concatenation) : Token.isToken c.text = false := by
  obtain ⟨l, links, hlinks⟩ := List.exists_cons_of_ne_nil c.joined
  have hne : c.links.flatMap Link.text ≠ [] := by
    simp [hlinks, Link.text]
  have hstops := stops_links Token.stops_nil c.links
  rw [List.append_nil] at hstops
  have htext : c.text = c.first.text ++ c.links.flatMap Link.text := rfl
  cases hfirst : c.first with
  | quote q =>
    rw [htext, hfirst]
    rfl
  | mention m =>
    have hsplit := Token.split?_text_append m.wellFormed hstops
    rw [htext, hfirst, Token.isToken, show (Part.mention m).text = m.text from rfl, hsplit]
    split
    · rename_i heq
      exact absurd (congrArg Prod.snd (Option.some.inj heq)) hne
    · rfl

theorem isLikely_text (c : Concatenation) : Expression.isLikely c.text = true := by
  obtain ⟨l, links, hlinks⟩ := List.exists_cons_of_ne_nil c.joined
  have hplus : '+' ∈ c.text := by simp [text, hlinks, Link.text]
  have hsign : '@' ∈ c.text := by
    obtain ⟨part, hpart, hmention⟩ := List.any_eq_true.1 c.mentions
    have hat : '@' ∈ part.text := by
      cases part with
      | quote q => cases hmention
      | mention m => exact List.mem_cons_self
    rcases List.mem_cons.1 hpart with rfl | hpart
    · exact List.mem_append_left _ hat
    · obtain ⟨l, hl, rfl⟩ := List.mem_map.1 hpart
      refine List.mem_append_right _ (List.mem_flatMap.2 ⟨l, hl, ?_⟩)
      simp [Link.text, hat]
  simp [Expression.isLikely, hplus, hsign]

theorem resolveString_text (c : Concatenation) :
    resolveString source (String.ofList c.text)
      = do return .string (String.join (← c.parts.mapM (Part.display source))) := by
  have hsegments := segmentTexts_segment source c.parts
  rw [resolveString, String.toList_ofList]
  simp only [c.isToken_text, c.isLikely_text, Bool.false_eq_true, if_false, if_true]
  rw [resolveExpression, c.parse_text, ← hsegments]
  obtain ⟨l, links, hlinks⟩ := List.exists_cons_of_ne_nil c.joined
  rw [parts, hlinks]
  cases c.first <;> rfl

end Concatenation

end JsonTemplate
