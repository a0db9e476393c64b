import JsonTemplate.Proofs.Marks
import JsonTemplate.Proofs.Slots

/-!
# Marks that are left

A mark in a text is part of one operand of one chain (`Piece.exists_operand_of_mark`): it is in a
literal, or it is a token, or it is among the arguments of one. It never begins in an operand and
ends behind it, since literals end with a quote, lists with a bracket, and a mark is a token itself.
-/

namespace JsonTemplate

open Text RepeatBlock

namespace RepeatBlock

variable {ds rest before after : List Char}

/-- A mark does not begin in a part without a sign. -/
theorem exists_eq_append_of_sign_notMem {xs : List Char} (hxs : '@' ∉ xs)
    (h : xs ++ rest = before ++ (mark ds ++ after)) :
    ∃ v, rest = v ++ (mark ds ++ after) := by
  rcases List.append_eq_append_iff.1 h with ⟨v, -, hrest⟩ | ⟨v, rfl, hrest⟩
  · exact ⟨v, hrest⟩
  · cases v with
    | nil => exact ⟨[], hrest.symm⟩
    | cons c v =>
      rw [mark, markStart_eq] at hrest
      obtain rfl : '@' = c := (List.cons.inj hrest).1
      exact absurd (List.mem_append_right _ List.mem_cons_self) hxs

/-- A mark does not go beyond a part that ends with a character that is none of its first ones. -/
theorem infix_or_exists_eq_append {xs : List Char} {c : Char} (hc : c ∉ markStart ++ ds)
    (h : (xs ++ [c]) ++ rest = before ++ (mark ds ++ after)) :
    mark ds <:+: xs ++ [c] ∨ ∃ v, rest = v ++ (mark ds ++ after) := by
  rcases List.append_eq_append_iff.1 h with ⟨v, -, hrest⟩ | ⟨v, hv, hrest⟩
  · exact .inr ⟨v, hrest⟩
  rcases List.append_eq_append_iff.1 hrest with ⟨w, rfl, -⟩ | ⟨w, hw, hafter⟩
  · exact .inl ⟨before, w, by rw [hv, List.append_assoc]⟩
  rcases List.eq_nil_or_concat v with rfl | ⟨v, d, rfl⟩
  · rw [List.nil_append] at hw
    exact .inr ⟨[], by rw [hafter, hw, List.nil_append]⟩
  rcases List.eq_nil_or_concat w with rfl | ⟨w, e, rfl⟩
  · rw [List.append_nil] at hw
    exact .inl ⟨before, [], by rw [hv, hw, List.append_nil]⟩
  · -- The last character is within the mark, but not at its end.
    rw [List.concat_eq_append, ← List.append_assoc] at hv
    obtain rfl := List.singleton_inj.1 (List.append_inj' hv rfl).2
    rw [mark, List.concat_eq_append, List.concat_eq_append, ← List.append_assoc] at hw
    exact absurd (by rw [(List.append_inj' hw rfl).1]; simp) hc

end RepeatBlock

/-! ## Operands -/

/-- A mark is a token. -/
theorem Token.split?_mark {ds : List Char} (hds : ∀ d ∈ ds, isDecimalDigit d = true)
    (after : List Char) :
    split? (mark ds ++ after) = some (⟨"repeat".toList, none, some ds⟩, after) := by
  have hends : EndsBefore ⟨"repeat".toList, none, some ds⟩ after := ⟨nofun, nofun, nofun⟩
  have hformed : WellFormed ⟨"repeat".toList, none, some ds⟩ := by
    refine ⟨⟨'r', "epeat".toList, rfl, rfl, List.all_eq_true.1 rfl⟩, nofun, ?_⟩
    rintro _ ⟨⟩ hm
    exact absurd (hds _ hm) (by decide)
  have htext : text ⟨"repeat".toList, none, some ds⟩ = mark ds := rfl
  rw [← htext, hends.split?_append hformed]

namespace Operand

/-- A literal takes all of the text, or ends with its quote. -/
theorem splitQuoted_cases : ∀ (escaped : Bool) (t : List Char),
    (splitQuoted escaped t).2 = [] ∨ ∃ w, (splitQuoted escaped t).1 = w ++ ['"']
  | escaped, [] => by cases escaped <;> exact .inl rfl
  | true, c :: t => by
    rcases splitQuoted_cases false t with hnil | ⟨w, hw⟩
    · exact .inl hnil
    · exact .inr ⟨c :: w, congrArg (c :: ·) hw⟩
  | false, c :: t => by
    rw [splitQuoted]
    split
    · rename_i hc
      exact .inr ⟨[], by rw [hc]; rfl⟩
    · rcases splitQuoted_cases (c == '\\') t with hnil | ⟨w, hw⟩
      · exact .inl hnil
      · exact .inr ⟨c :: w, congrArg (c :: ·) hw⟩

variable {ds before after : List Char} (hds : ∀ d ∈ ds, isDecimalDigit d = true)
include hds

theorem split?_mark (after : List Char) :
    split? (mark ds ++ after) = some (.token (mark ds), after) := by
  have h := Token.split?_mark hds after
  have hcons : mark ds ++ after = '@' :: ("repeat(".toList ++ ds ++ [')'] ++ after) := rfl
  rw [hcons] at h
  rw [hcons, split?, h]
  · rfl
  · simp

/-- A mark is within the operand at the head of its text, or behind it. -/
theorem mark_cases {rest : List Char} {o : Operand}
    (h : split? (before ++ (mark ds ++ after)) = some (o, rest)) :
    mark ds <:+: o.text ∨ ∃ v, rest = v ++ (mark ds ++ after) := by
  have happ := split?_append h
  rcases split?_eq_some h with ⟨u, hu, rfl, rfl⟩ | ⟨k, hk, rfl⟩
  · rcases splitQuoted_cases false u with hnil | ⟨w, hw⟩
    · -- The literal is never closed, and the mark is within it like all the rest.
      rw [hnil, List.append_nil] at happ
      exact .inl ⟨before, after, by rw [happ, List.append_assoc]⟩
    · rw [text, hw, ← List.cons_append] at happ ⊢
      refine infix_or_exists_eq_append (fun hm => outsideMarks_quote ds hds ?_) happ
      exact List.mem_append_left _ hm
  · obtain ⟨name, method, arguments⟩ := k
    have hformed := Token.wellFormed_of_split? hk
    cases arguments with
    | some a =>
      have htext : text (.token (Token.text ⟨name, method, some a⟩))
          = ('@' :: name ++ Token.methodText method ++ '(' :: a) ++ [')'] := by
        simp [text, Token.text, Token.argumentsText]
      rw [htext] at happ ⊢
      refine infix_or_exists_eq_append (fun hm => ?_) happ
      rcases List.mem_append.1 hm with hm | hm
      · exact absurd hm (by decide)
      · exact absurd (hds _ hm) (by decide)
    | none =>
      -- The sign of the mark is not that of the token, which has no list.
      have hpath : '@' ∉ name ++ Token.methodText method := by
        rw [List.mem_append, not_or]
        refine ⟨fun hm => absurd (hformed.name.isNameChar _ hm) (by decide), fun hm => ?_⟩
        cases method with
        | none => cases hm
        | some m =>
          rcases List.mem_cons.1 hm with hm | hm
          · cases hm
          · exact absurd ((hformed.method m rfl).isNameChar _ hm) (by decide)
      cases before with
      | nil =>
        rw [List.nil_append, Token.split?_mark hds] at hk
        cases hk
      | cons c before =>
        have happ : '@' :: (name ++ Token.methodText method ++ rest)
            = c :: (before ++ (mark ds ++ after)) := by
          simpa [text, Token.text, Token.argumentsText] using happ
        exact .inr (exists_eq_append_of_sign_notMem hpath (List.cons.inj happ).2)

end Operand

/-! ## Chains -/

namespace Chain

variable {ds before after : List Char} (hds : ∀ d ∈ ds, isDecimalDigit d = true)
include hds

theorem splitJoined_mark_cases {t : List Char} : ∀ {before : List Char},
    t = before ++ (mark ds ++ after) →
      (∃ o ∈ (splitJoined t).1.operands, mark ds <:+: o.text)
        ∨ ∃ v, (splitJoined t).2 = v ++ (mark ds ++ after) := by
  fun_induction splitJoined t with
  | case1 t hj => exact fun h => .inr ⟨_, h⟩
  | case2 t join o rest hj chain rest' heq ih =>
    intro before h
    obtain ⟨blanks, blanks', u, hb, hb', rfl, rfl, ho⟩ := splitJoin?_eq_some hj
    have hsign : '@' ∉ blanks ++ '+' :: blanks' := by
      rw [List.mem_append, List.mem_cons, not_or, not_or]
      exact ⟨fun hm => absurd (hb _ hm) (by decide), by decide,
        fun hm => absurd (hb' _ hm) (by decide)⟩
    obtain ⟨v, rfl⟩ := exists_eq_append_of_sign_notMem hsign h
    rcases Operand.mark_cases hds ho with hmark | ⟨w, hw⟩
    · exact .inl ⟨o, List.mem_cons_self, hmark⟩
    · have hrest := ih hw
      rw [heq] at hrest
      rcases hrest with ⟨o', ho', hmark⟩ | hrest
      · exact .inl ⟨o', List.mem_cons_of_mem _ ho', hmark⟩
      · exact .inr hrest

/-- A mark is within an operand of the chain at the head of its text, or behind the chain. -/
theorem mark_cases {rest : List Char} {chain : Chain}
    (h : split? (before ++ (mark ds ++ after)) = some (chain, rest)) :
    (∃ o ∈ chain.operands, mark ds <:+: o.text) ∨ ∃ v, rest = v ++ (mark ds ++ after) := by
  obtain ⟨o, rest', ho, rfl, rfl⟩ := split?_eq_some h
  rcases Operand.mark_cases hds ho with hmark | ⟨v, hv⟩
  · exact .inl ⟨o, List.mem_cons_self, hmark⟩
  · rcases splitJoined_mark_cases hds hv with ⟨o', ho', hmark⟩ | hrest
    · exact .inl ⟨o', List.mem_cons_of_mem _ ho', hmark⟩
    · exact .inr hrest

end Chain

/-- Wherever a mark is in a text, it is within one operand of one chain. -/
theorem Piece.exists_operand_of_mark {ds after : List Char}
    (hds : ∀ d ∈ ds, isDecimalDigit d = true) {t : List Char} : ∀ {before : List Char},
      t = before ++ (mark ds ++ after) →
        ∃ chain, .chained chain ∈ cut t ∧ ∃ o ∈ chain.operands, mark ds <:+: o.text := by
  fun_induction cut t with
  | case1 =>
    intro before h
    have := congrArg List.length h
    simp [mark] at this
  | case2 c t hs ih =>
    intro before h
    cases before with
    | nil =>
      -- A text that begins with a mark begins with a chain.
      rw [h, List.nil_append, Chain.split?, Operand.split?_mark hds] at hs
      cases hs
    | cons d before =>
      obtain ⟨chain, hchain, hmark⟩ := ih (List.cons.inj h).2
      exact ⟨chain, List.mem_cons_of_mem _ hchain, hmark⟩
  | case3 c t chain rest hs ih =>
    intro before h
    rw [h] at hs
    rcases Chain.mark_cases hds hs with hmark | ⟨v, hv⟩
    · exact ⟨chain, List.mem_cons_self, hmark⟩
    · obtain ⟨chain', hchain, hmark⟩ := ih hv
      exact ⟨chain', List.mem_cons_of_mem _ hchain, hmark⟩

end JsonTemplate
