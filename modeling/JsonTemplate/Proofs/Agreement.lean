import JsonTemplate.Proofs.Cutting

/-!
# Two ways of cutting an expression

A concatenation is cut twice: into operands when it is set aside, and at its top-level signs when it
is evaluated. The list of a token ends at the first closing bracket for the one, but is read with
its quotes and nested brackets by the other. Both find the same parts exactly if each token that a
sign follows is `Operand.Balanced` (`Chain.parse_text_iff`).
-/

namespace JsonTemplate

open Text

namespace Chain

/-- What is joined on: its operands in a row, each taken off a text. -/
theorem joined_splitJoined (t : List Char) :
    Operand.Joined (splitJoined t).1.operands (splitJoined t).1.text
      ∧ ∀ o ∈ (splitJoined t).1.operands, ∃ u rest, Operand.split? u = some (o, rest) := by
  fun_induction splitJoined t with
  | case1 => exact ⟨.nil, fun o ho => by cases ho⟩
  | case2 t join o rest h chain rest' heq ih =>
    rw [heq] at ih
    obtain ⟨before, after, u, hb, ha, rfl, -, hs⟩ := splitJoin?_eq_some h
    have hjoined := Operand.Joined.cons (o := o) ⟨before, hb⟩ ⟨after, ha⟩ ih.1
    refine ⟨by simpa using hjoined, fun p hp => ?_⟩
    rcases List.mem_cons.1 hp with rfl | hp
    · exact ⟨_, _, hs⟩
    · exact ih.2 p hp

/-- A concatenation is recorded with its text, and the text is parsed into its operands, each as it
is read on its own, exactly if all quotes and brackets of each token that a sign follows are closed
again at the end of the token. -/
theorem parse_text_iff (t : List Char) (chain : Chain) (hc : .chained chain ∈ Piece.cut t)
    (hjoined : 1 < chain.operands.length) (htoken : chain.operands.any Operand.isToken = true)
    (hterminated : ∀ o ∈ chain.operands, o.Terminated) :
    (∀ p, (chain.toPlain p).2.expressions = p.expressions
        ++ [(Placeholder.ofExpression p.nextExpression, String.ofList (trim chain.text))])
      ∧ ((Expression.parse (trim chain.text)).map some = chain.operands.map Operand.segment?
        ↔ ∀ o ∈ chain.operands.dropLast, o.Balanced) := by
  refine ⟨fun p => by rw [toPlain_of_joined hjoined htoken]; rfl, ?_⟩
  obtain ⟨before, rest, -, hsplit⟩ := Piece.mem_cut hc
  obtain ⟨o, rest', ho, -, hchain⟩ := split?_eq_some hsplit
  obtain ⟨hrow, htaken⟩ := joined_splitJoined rest'
  rw [hchain] at hterminated ⊢
  have hwhole := Operand.whole_of_split? ho (hterminated o List.mem_cons_self)
  have hwholes : ∀ p ∈ (splitJoined rest').1.operands, p.Whole := by
    intro p hp
    obtain ⟨u, rest'', hp'⟩ := htaken p hp
    exact Operand.whole_of_split? hp' (hterminated p (List.mem_cons_of_mem _ hp))
  have htrim : trim (o.text ++ (splitJoined rest').1.text)
      = o.text ++ (splitJoined rest').1.text := by
    obtain ⟨c, u, hu, -⟩ := hwhole.exists_eq_cons
    refine trim_eq_self (fun d hd => hwhole.isBlank_head? d ?_)
      (hrow.isBlank_getLast? hwholes hwhole.isBlank_getLast?)
    rw [hu] at hd ⊢
    exact hd
  have hiff := hrow.parse_iff .none hwhole hwholes
  rwa [Blanks.val_none, List.nil_append, ← htrim] at hiff

theorem parse_text_quotedArgument :
    let chain : Chain := ⟨"\"a\" + @x.y(\"(\") + @z".toList,
      [.literal "\"a\"".toList, .token "@x.y(\"(\")".toList, .token "@z".toList]⟩
    .chained chain ∈ Piece.cut chain.text
      ∧ (Expression.parse (trim chain.text)).map some = chain.operands.map Operand.segment? := by
  intro chain
  have hc : .chained chain ∈ Piece.cut chain.text := by decide +kernel
  have hterminated : ∀ o ∈ chain.operands, o.Terminated := by
    simp only [chain, List.forall_mem_cons]
    exact ⟨fun u => rfl, trivial, trivial, fun o ho => by cases ho⟩
  exact ⟨hc, (parse_text_iff chain.text chain hc (by decide) (by decide) hterminated).2.2
    (by decide +kernel)⟩

/-- An opening bracket in a list is not closed by the end of the list, and the sign after it is not
found. -/
theorem parse_text_openBracket : ¬ ∀ (t : List Char) (chain : Chain),
    .chained chain ∈ Piece.cut t → 1 < chain.operands.length →
      chain.operands.any Operand.isToken = true → (∀ o ∈ chain.operands, o.Terminated) →
        (Expression.parse (trim chain.text)).map some = chain.operands.map Operand.segment? := by
  intro h
  have hparse := h "@x.y(() + \"b\"".toList
    ⟨"@x.y(() + \"b\"".toList, [.token "@x.y(()".toList, .literal "\"b\"".toList]⟩
    (by decide +kernel) (by decide) (by decide) (by
      simp only [List.forall_mem_cons]
      exact ⟨trivial, fun u => rfl, fun o ho => by cases ho⟩)
  have hlength : (Expression.parse (trim "@x.y(() + \"b\"".toList)).length = 1 := by
    decide +kernel
  have := congrArg List.length hparse
  rw [List.length_map, hlength] at this
  cases this

end Chain

end JsonTemplate
