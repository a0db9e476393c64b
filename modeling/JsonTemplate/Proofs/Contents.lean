import JsonTemplate.Proofs.Reinstating

/-!
# The strings of a text that is read

Where no literal is the placeholder of an expression (`Piece.Fresh`), each placeholder occurs once
among the strings of a text (`count_contents_le`), and the table says which chain it stands for
(`mem_contents`). So putting the expressions back is replacing each string on its own
(`reinstate_read`).
-/

namespace JsonTemplate

open Text Json

namespace Placeholders

/-- What has been recorded is not recorded anew. -/
theorem expression?_recordExpression_of_some {p : Placeholders} {x e : String}
    (h : p.expression? x = some e) (t : List Char) :
    (p.recordExpression t).2.expression? x = some e := by
  unfold expression? at h
  simp only [recordExpression, expression?, List.lookup_append, h, Option.some_or]

theorem expression?_recordExpression {p : Placeholders} (hp : p.WellFormed) (t : List Char) :
    (p.recordExpression t).2.expression? (Placeholder.ofExpression p.nextExpression)
      = some (String.ofList (trim t)) := by
  have hnone : p.expressions.lookup (Placeholder.ofExpression p.nextExpression) = none := by
    rw [List.lookup_eq_none_iff]
    intro e he
    obtain ⟨n, hn, hname⟩ := hp.placeholder e he
    rw [hname, bne_iff_ne]
    intro heq
    have := Placeholder.ofExpression_injective heq
    omega
  simp only [recordExpression, expression?, List.lookup_append, hnone, Option.none_or,
    List.lookup_cons, beq_self_eq_true]

/-- Only placeholders of expressions are looked up with success. -/
theorem WellFormed.ofExpression_of_expression? {p : Placeholders} (hp : p.WellFormed) {x : String}
    (h : (p.expression? x).isSome) : ∃ n, x = Placeholder.ofExpression n := by
  obtain ⟨e, he⟩ := Option.isSome_iff_exists.1 h
  obtain ⟨before, after, hmem, -⟩ := List.lookup_eq_some_iff.1 he
  obtain ⟨n, -, hn⟩ := hp.placeholder (x, e) (by rw [hmem]; simp)
  exact ⟨n, hn⟩

end Placeholders

theorem Chain.toPlain_of_joined {chain : Chain} (h : 1 < chain.operands.length)
    (hany : chain.operands.any Operand.isToken = true) (p : Placeholders) :
    (chain.toPlain p).2 = (p.recordExpression chain.text).2 := by
  rw [toPlain, if_pos hany, if_pos h]

theorem Chain.expression?_toPlain {chain : Chain} {p : Placeholders} {x e : String}
    (h : p.expression? x = some e) : (chain.toPlain p).2.expression? x = some e := by
  unfold toPlain
  split
  · split
    · exact Placeholders.expression?_recordExpression_of_some h chain.text
    · exact h
  · exact h

namespace Piece

/-- The strings of pieces, each taken as a value. -/
def contents : List Piece → Placeholders → List String :=
  collectContents (fun _ => []) fun s => [s]

/-- The strings of pieces that a colon follows. -/
def names : List Piece → Placeholders → List String :=
  collectContents (fun k => [k]) fun _ => []

@[simp] theorem contents_nil (p : Placeholders) : contents [] p = [] :=
  rfl

@[simp] theorem contents_other (c : Char) (rest : List Piece) (p : Placeholders) :
    contents (.other c :: rest) p = contents rest p :=
  rfl

@[simp] theorem contents_chained (chain : Chain) (rest : List Piece) (p : Placeholders) :
    contents (.chained chain :: rest) p
      = (chain.content? p).toList ++ contents rest (chain.toPlain p).2 := by
  rw [contents, collectContents]
  cases chain.content? p <;> simp

@[simp] theorem names_nil (p : Placeholders) : names [] p = [] :=
  rfl

@[simp] theorem names_other (c : Char) (rest : List Piece) (p : Placeholders) :
    names (.other c :: rest) p = names rest p :=
  rfl

@[simp] theorem names_chained (chain : Chain) (rest : List Piece) (p : Placeholders) :
    names (.chained chain :: rest) p
      = (if isColonNext rest then (chain.content? p).toList else [])
        ++ names rest (chain.toPlain p).2 := by
  rw [names, collectContents]
  cases chain.content? p <;> simp

theorem expression?_quoteAll {x e : String} : ∀ {ps : List Piece} {p : Placeholders},
    p.expression? x = some e → (quoteAll ps p).2.expression? x = some e
  | [], _, h => h
  | .other c :: rest, p, h => by
    rw [quoteAll, toPlain]
    exact expression?_quoteAll h
  | .chained chain :: rest, p, h => by
    rw [quoteAll, toPlain]
    exact expression?_quoteAll (Chain.expression?_toPlain h)

/-- No single operand is read as the placeholder of an expression. -/
def Fresh (ps : List Piece) : Prop :=
  ∀ chain, .chained chain ∈ ps → ¬ 1 < chain.operands.length → ∀ p x n,
    chain.content? p = some x → x ≠ Placeholder.ofExpression n

theorem Fresh.tail {piece : Piece} {ps : List Piece} (h : Fresh (piece :: ps)) : Fresh ps :=
  fun chain hc => h chain (List.mem_cons_of_mem _ hc)

theorem Fresh.count_content?_add_le {ps : List Piece} (h : Fresh ps) {chain : Chain}
    (hc : .chained chain ∈ ps) (p : Placeholders) (n : Nat) :
    (chain.content? p).toList.count (Placeholder.ofExpression n)
        + (if (chain.toPlain p).2.nextExpression ≤ n then 1 else 0)
      ≤ if p.nextExpression ≤ n then 1 else 0 := by
  by_cases hjoined : 1 < chain.operands.length
  · rw [Chain.content?_of_joined hjoined]
    by_cases hany : chain.operands.any Operand.isToken = true
    · have hcount : [Placeholder.ofExpression p.nextExpression].count (Placeholder.ofExpression n)
          = if p.nextExpression = n then 1 else 0 := by
        rw [List.count_singleton]
        by_cases heq : p.nextExpression = n
        · simp [heq]
        · rw [if_neg heq, if_neg]
          exact fun hb => heq (Placeholder.ofExpression_injective (beq_iff_eq.1 hb))
      rw [if_pos hany, Chain.toPlain_of_joined hjoined hany, Option.toList_some, hcount]
      simp only [Placeholders.recordExpression]
      grind
    · rw [if_neg hany, Chain.toPlain, if_neg hany]
      simp
  · have hzero : (chain.content? p).toList.count (Placeholder.ofExpression n) = 0 := by
      rw [List.count_eq_zero]
      intro hm
      exact h chain hc hjoined p _ n (Option.mem_toList.1 hm) rfl
    have hnext : (chain.toPlain p).2.nextExpression = p.nextExpression := by
      unfold Chain.toPlain
      rw [if_neg hjoined]
      split <;> rfl
    exact Nat.le_of_eq (by rw [hzero, hnext, Nat.zero_add])

/-- The placeholders of a text are numbered from the next one on, each once. -/
theorem count_contents_le (n : Nat) (t : List Char) (p : Placeholders) (hf : Fresh (cut t)) :
    (contents (cut t) p).count (Placeholder.ofExpression n)
      ≤ if p.nextExpression ≤ n then 1 else 0 := by
  fun_induction cut t generalizing p with
  | case1 => simp
  | case2 c t hs ih => exact ih p hf.tail
  | case3 c t chain rest hs ih =>
    have hrest := ih (chain.toPlain p).2 hf.tail
    have hchain := hf.count_content?_add_le List.mem_cons_self p n
    rw [contents_chained, List.count_append]
    exact Nat.le_trans (Nat.add_le_add_left hrest _) hchain

/-- A string of a text is what a single operand is read as, or stands for a concatenation. -/
theorem mem_contents {x : String} (t : List Char) (p : Placeholders) (hp : p.WellFormed)
    (hx : x ∈ contents (cut t) p) :
    (∃ chain, .chained chain ∈ cut t ∧ ¬ 1 < chain.operands.length
        ∧ ∃ q, chain.content? q = some x)
      ∨ ∃ chain, .chained chain ∈ cut t ∧ 1 < chain.operands.length
        ∧ (quoteAll (cut t) p).2.expression? x = some (String.ofList (trim chain.text)) := by
  fun_induction cut t generalizing p with
  | case1 => cases hx
  | case2 c t hs ih =>
    rcases ih p hp hx with ⟨chain, hc, h⟩ | ⟨chain, hc, h⟩
    · exact .inl ⟨chain, List.mem_cons_of_mem _ hc, h⟩
    · exact .inr ⟨chain, List.mem_cons_of_mem _ hc, h⟩
  | case3 c t chain rest hs ih =>
    rw [contents_chained] at hx
    rcases List.mem_append.1 hx with hx | hx
    · rw [Option.mem_toList] at hx
      by_cases hjoined : 1 < chain.operands.length
      · refine .inr ⟨chain, List.mem_cons_self, hjoined, ?_⟩
        rw [Chain.content?_of_joined hjoined] at hx
        split at hx
        · rename_i hany
          cases hx
          change (quoteAll (cut rest) (chain.toPlain p).2).2.expression? _ = _
          refine expression?_quoteAll ?_
          rw [Chain.toPlain_of_joined hjoined hany]
          exact Placeholders.expression?_recordExpression hp chain.text
        · cases hx
      · exact .inl ⟨chain, List.mem_cons_self, hjoined, p, hx⟩
    · rcases ih (chain.toPlain p).2 (hp.toPlain hs) hx with ⟨chain', hc, h⟩ | ⟨chain', hc, h⟩
      · exact .inl ⟨chain', List.mem_cons_of_mem _ hc, h⟩
      · exact .inr ⟨chain', List.mem_cons_of_mem _ hc, h⟩

/-- Where a chain stands in a text. -/
theorem mem_cut {chain : Chain} {t : List Char} (h : .chained chain ∈ cut t) :
    ∃ before rest, t = before ++ (chain.text ++ rest)
      ∧ Chain.split? (chain.text ++ rest) = some (chain, rest) := by
  fun_induction cut t with
  | case1 => cases h
  | case2 c t hs ih =>
    rcases List.mem_cons.1 h with h | h
    · cases h
    · obtain ⟨before, rest, rfl, hsplit⟩ := ih h
      exact ⟨c :: before, rest, rfl, hsplit⟩
  | case3 c t chain' rest hs ih =>
    have happ := Chain.split?_append hs
    rcases List.mem_cons.1 h with h | h
    · cases h
      exact ⟨[], rest, by rw [happ]; rfl, by rw [happ, hs]⟩
    · obtain ⟨before, rest', rfl, hsplit⟩ := ih h
      exact ⟨chain'.text ++ before, rest', by rw [← happ]; simp, hsplit⟩

end Piece

/-! ## Reading -/

/-- Each string of what is read is among the contents, and each name among the names. -/
theorem mem_of_read {t : List Char} {p : Placeholders} {v : Json}
    (h : Json.read (quoteChains t p).1 = .ok v) :
    (∀ x, v.values.count x ≤ (Piece.contents (Piece.cut t) p).count x)
      ∧ ∀ x, v.keys.count x ≤ (Piece.names (Piece.cut t) p).count x := by
  have hr := read_quoteChains t p
  rw [h] at hr
  have hquote : ∀ c, .other c ∈ Piece.cut t → c ≠ '"' := fun _ => Piece.other_ne_quote_of_mem
  constructor
  · intro x
    have := Piece.count_readAll? (K := fun _ => []) (V := fun s => [s]) x
      ReaderState.isBetween_initial hquote hr.symm
    exact Nat.le_trans this (Nat.le_of_eq (Nat.zero_add _))
  · intro x
    have := Piece.count_readAll? (K := fun k => [k]) (V := fun _ => []) x
      ReaderState.isBetween_initial hquote hr.symm
    exact Nat.le_trans this (Nat.le_of_eq (Nat.zero_add _))

/-- The expressions of a text are put back one by one. -/
theorem reinstate_read {t : List Char} {p : Placeholders} (hp : p.WellFormed)
    (hf : Piece.Fresh (Piece.cut t)) {v : Json} (h : Json.read (quoteChains t p).1 = .ok v) :
    ((quoteChains t p).2.reinstate v).1 = v.replaceStrings (quoteChains t p).2.textOf := by
  refine Placeholders.reinstate_eq _ fun x hx => ?_
  obtain ⟨n, rfl⟩ := (hp.quoteChains t).ofExpression_of_expression? hx
  have hcount := Piece.count_contents_le n t p hf
  have hread := (mem_of_read h).1 (Placeholder.ofExpression n)
  split at hcount <;> omega

section Reinstated

variable {t : List Char} {p : Placeholders} {v : Json}

/-- A string of what is read, with the expressions put back, is what a single operand is read as,
or the text of a concatenation. -/
theorem exists_chain_of_mem_values (hp : p.WellFormed) (hf : Piece.Fresh (Piece.cut t))
    (h : Json.read (quoteChains t p).1 = .ok v) {s : String}
    (hs : s ∈ ((quoteChains t p).2.reinstate v).1.values) :
    ∃ chain, .chained chain ∈ Piece.cut t
      ∧ ((¬ 1 < chain.operands.length ∧ ∃ q, chain.content? q = some s)
        ∨ (1 < chain.operands.length ∧ s = String.ofList (trim chain.text))) := by
  rw [reinstate_read hp hf h, Json.values_replaceStrings] at hs
  obtain ⟨x, hx, rfl⟩ := List.mem_map.1 hs
  have hcount := (mem_of_read h).1 x
  have hx : x ∈ Piece.contents (Piece.cut t) p :=
    List.count_pos_iff.1 (Nat.lt_of_lt_of_le (List.count_pos_iff.2 hx) hcount)
  rw [quoteChains_eq, Placeholders.textOf]
  rcases Piece.mem_contents t p hp hx with ⟨chain, hc, hlen, q, hq⟩ | ⟨chain, hc, hlen, he⟩
  · have hnone : (Piece.quoteAll (Piece.cut t) p).2.expression? x = none := by
      cases hsome : (Piece.quoteAll (Piece.cut t) p).2.expression? x with
      | none => rfl
      | some e =>
        have hwf := hp.quoteChains t
        rw [quoteChains_eq] at hwf
        obtain ⟨n, hn⟩ := hwf.ofExpression_of_expression? (by rw [hsome]; rfl)
        exact absurd hn (hf chain hc hlen q x n hq)
    rw [hnone, Option.getD_none]
    exact ⟨chain, hc, .inl ⟨hlen, q, hq⟩⟩
  · rw [he, Option.getD_some]
    exact ⟨chain, hc, .inr ⟨hlen, rfl⟩⟩

/-- A name of what is read is a string that a colon follows. -/
theorem mem_names_of_mem_keys (hp : p.WellFormed) (hf : Piece.Fresh (Piece.cut t))
    (h : Json.read (quoteChains t p).1 = .ok v) {k : String}
    (hk : k ∈ ((quoteChains t p).2.reinstate v).1.keys) : k ∈ Piece.names (Piece.cut t) p := by
  rw [reinstate_read hp hf h, Json.keys_replaceStrings] at hk
  exact List.count_pos_iff.1 (Nat.lt_of_lt_of_le (List.count_pos_iff.2 hk) ((mem_of_read h).2 k))

end Reinstated

end JsonTemplate
