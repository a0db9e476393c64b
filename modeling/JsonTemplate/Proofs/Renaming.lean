import JsonTemplate.Proofs.Matching
import JsonTemplate.Proofs.References

/-!
# Renumbering expressions

A text without escapes in which no placeholder of an expression is written (`Transparent`) is read
the same with every table, but for the numbers of its expressions. So the references of its blocks
are lasting ones (`references_eq`).
-/

namespace JsonTemplate

open Text Json Json.ReaderState

/-! ## Transparent texts -/

/-- No backslash, and nothing that begins like the placeholder of an expression. -/
structure Transparent (t : List Char) : Prop where
  noEscape : '\\' ∉ t
  noPlaceholder : ¬ "__EXPR_".toList <:+: t

theorem Transparent.part {s t : List Char} (h : Transparent t) (hs : s <:+: t) :
    Transparent s where
  noEscape hm := h.noEscape (hs.subset hm)
  noPlaceholder hm := h.noPlaceholder (hm.trans hs)

theorem Transparent.replace {front ph rest : List Char} (hf : Transparent front)
    (hp : Transparent ph) (hr : Transparent rest) :
    Transparent (front ++ '"' :: (ph ++ '"' :: rest)) where
  noEscape := by
    simp only [List.mem_append, List.mem_cons, not_or]
    exact ⟨hf.noEscape, by decide, hp.noEscape, by decide, hr.noEscape⟩
  noPlaceholder h := by
    have hq : '"' ∉ "__EXPR_".toList := by decide
    rcases infix_or_of_notMem hq h with h | h
    · exact hf.noPlaceholder h
    · rcases infix_or_of_notMem hq h with h | h
      · exact hp.noPlaceholder h
      · exact hr.noPlaceholder h

theorem transparent_ofBlock (n : Nat) :
    Transparent (Placeholder.ofBlock (Placeholder.blockName n)).toList where
  noEscape h := by
    have := Placeholder.isNameChar_of_mem_ofBlock h
    revert this
    decide
  noPlaceholder h := by
    have hX : 'X' ∈ (Placeholder.ofBlock (Placeholder.blockName n)).toList :=
      h.subset (by decide)
    rw [Placeholder.toList_ofBlock, Placeholder.toList_blockName, List.mem_append,
      List.mem_append, List.mem_append] at hX
    rcases hX with (hX | hX | hX) | hX
    · revert hX
      decide
    · revert hX
      decide
    · exact absurd (isDigit_of_mem_natText hX) (by decide)
    · revert hX
      decide

theorem transparent_extractFrom (before after : List Char) (p : Placeholders)
    (h : Transparent (before.reverse ++ after))
    (hp : ∀ b ∈ p.blocks, Transparent b.2.template.toList) :
    ∀ b ∈ (RepeatBlock.extractFrom before after p).2.blocks, Transparent b.2.template.toList := by
  fun_induction RepeatBlock.extractFrom before after p with
  | case1 before p => exact hp
  | case2 before p c t hm ih =>
    refine ih ?_ hp
    rw [List.reverse_cons, List.append_assoc]
    exact h
  | case3 before p c t ds rest hm count template before' ha hc placeholder p' heq ih =>
    obtain ⟨blanks, hb⟩ := RepeatBlock.splitArray?_append ha
    obtain ⟨hmark, -⟩ := RepeatBlock.splitMark?_eq_some_iff.1 hm
    rw [hb, hmark] at h
    cases heq
    refine ih ?_ ?_
    · have hfront : Transparent before'.reverse :=
        h.part ⟨[], template ++ blanks ++ (RepeatBlock.mark ds ++ rest), by simp⟩
      have hrest : Transparent rest :=
        h.part ⟨before'.reverse ++ template ++ blanks ++ RepeatBlock.mark ds, [], by simp⟩
      simpa using hfront.replace (transparent_ofBlock p.nextBlock) hrest
    · intro b hmem
      rcases List.mem_append.1 hmem with hmem | hmem
      · exact hp b hmem
      · rw [List.mem_singleton.1 hmem, String.toList_ofList]
        exact h.part ⟨before'.reverse, blanks ++ (RepeatBlock.mark ds ++ rest), by simp⟩
  | case4 => exact hp

/-! ## Related strings -/

/-- The same string, none of an expression, or the placeholders of one expression with two
numberings. -/
def Renumbered (m n : Nat) (x y : String) : Prop :=
  (x = y ∧ ∀ k, x ≠ Placeholder.ofExpression k)
    ∨ ∃ i, x = Placeholder.ofExpression (m + i) ∧ y = Placeholder.ofExpression (n + i)

theorem oneToOne_renumbered (m n : Nat) : OneToOne (Renumbered m n) := by
  rintro x x' y y' (⟨rfl, hx⟩ | ⟨i, rfl, rfl⟩) (⟨rfl, hy⟩ | ⟨j, rfl, rfl⟩)
  · rfl
  · exact ⟨fun h => absurd h (hx _), fun h => absurd h (hx _)⟩
  · exact ⟨fun h => absurd h.symm (hy _), fun h => absurd h.symm (hy _)⟩
  · constructor
    · intro h
      have := Placeholder.ofExpression_injective h
      rw [Nat.add_left_cancel this]
    · intro h
      have := Placeholder.ofExpression_injective h
      rw [Nat.add_left_cancel this]

/-! ## Reading with two tables -/

/-- The number of expressions that a chain records. -/
def Chain.weight (chain : Chain) : Nat :=
  if chain.operands.any Operand.isToken ∧ 1 < chain.operands.length then 1 else 0

theorem Chain.toPlain_nextExpression (chain : Chain) (p : Placeholders) :
    (chain.toPlain p).2.nextExpression = p.nextExpression + chain.weight := by
  unfold toPlain weight
  by_cases hany : chain.operands.any Operand.isToken = true
  · by_cases hlen : 1 < chain.operands.length
    · simp [hany, hlen, Placeholders.recordExpression]
    · simp [hany, hlen]
  · simp [hany]

theorem not_ofExpression_of_infix {x : String} {t : List Char} (ht : Transparent t)
    (hx : x.toList <:+: t) (n : Nat) : x ≠ Placeholder.ofExpression n := by
  rintro rfl
  refine (ht.part hx).noPlaceholder ⟨[], natText n ++ ['_', '_'], ?_⟩
  rw [Placeholder.toList_ofExpression, Placeholder.toList_expressionStart]
  simp

/-- A chain of a transparent text is read as the same string, or as an expression's placeholder. -/
theorem Chain.content?_renumbered {t rest : List Char} {chain : Chain} (ht : Transparent t)
    (h : split? t = some (chain, rest)) {m n i : Nat} {p q : Placeholders}
    (hp : p.nextExpression = m + i) (hq : q.nextExpression = n + i) :
    Option.Rel (Renumbered m n) (chain.content? p) (chain.content? q) := by
  by_cases hlen : 1 < chain.operands.length
  · rw [content?_of_joined hlen, content?_of_joined hlen]
    split
    · exact .some (.inr ⟨i, by rw [hp], by rw [hq]⟩)
    · exact .none
  have hsame : chain.content? q = chain.content? p := by
    rcases split?_cases h with ⟨u, -, -, rfl⟩ | ⟨k, -, rfl⟩ | h
    · rfl
    · rfl
    · exact absurd h hlen
  rw [hsame]
  cases hx : chain.content? p with
  | none => exact .none
  | some x =>
    have happ := split?_append h
    have htext : chain.text <:+: t := ⟨[], rest, happ⟩
    refine .some (.inl ⟨rfl, fun n => ?_⟩)
    rcases content?_cases h (escapeless_of_notMem (ht.part htext).noEscape) hx with
      ⟨-, hbody, -⟩ | ⟨k, -, -, -, rfl⟩ | ⟨h, -⟩
    · refine not_ofExpression_of_infix ht (List.IsInfix.trans ?_ htext) n
      exact ⟨['"'], ['"'], by rw [hbody]; simp⟩
    · exact Placeholder.ofList_text_ne_ofExpression k n
    · exact absurd h hlen

theorem Piece.matchingContents_renumbered {m n i : Nat} {t : List Char} (ht : Transparent t)
    {p q : Placeholders} (hp : p.nextExpression = m + i) (hq : q.nextExpression = n + i) :
    MatchingContents (Renumbered m n) (cut t) p q := by
  fun_induction cut t generalizing i p q with
  | case1 => trivial
  | case2 c t h ih => exact ih (ht.part (List.suffix_cons c t).isInfix) hp hq
  | case3 c t chain rest h ih =>
    have hrest : Transparent rest := by
      refine ht.part ⟨chain.text, [], ?_⟩
      rw [List.append_nil, Chain.split?_append h]
    refine ⟨Chain.content?_renumbered ht h hp hq, ih hrest (i := i + chain.weight) ?_ ?_⟩
    · rw [Chain.toPlain_nextExpression, hp, Nat.add_assoc]
    · rw [Chain.toPlain_nextExpression, hq, Nat.add_assoc]

/-- A transparent text is read the same with two tables, but for the numbers of its expressions. -/
theorem matching_read {t : List Char} (ht : Transparent t) (p q : Placeholders) :
    Option.Rel (Matching (Renumbered p.nextExpression q.nextExpression))
      (Json.read (quoteChains t p).1).toOption (Json.read (quoteChains t q).1).toOption := by
  rw [read_quoteChains, read_quoteChains]
  exact Piece.matching_readAll? (oneToOne_renumbered _ _)
    (Piece.matchingContents_renumbered ht (i := 0) rfl rfl) ⟨.nil, .value⟩
    fun c => Piece.other_ne_quote_of_mem

/-! ## References -/

section Reinstating

variable {N : String → Option String}

theorem WellFormed.named_reinstateString (hN : ∀ s, Placeholder.blockName? s.toList = none →
    N s = none) (s : String) {p : Placeholders} (hp : p.WellFormed) :
    ((Placeholders.reinstateString s).run p).1.values.filterMap N = [s].filterMap N := by
  change (Placeholders.reinstateString s p).1.values.filterMap N = _
  unfold Placeholders.reinstateString
  split
  · rename_i t ht
    obtain ⟨before, after, hmem, -⟩ := List.lookup_eq_some_iff.1 ht
    have hmem : (s, t) ∈ p.expressions := by
      rw [hmem]
      simp
    obtain ⟨n, -, hn⟩ := hp.placeholder _ hmem
    dsimp only at hn
    have hs : N s = none := hN s (by rw [hn]; exact Placeholder.blockName?_ofExpression n)
    have ht : N t = none := hN t (hp.expression _ hmem)
    simp [hs, ht]
  · rfl

mutual

/-- Putting expressions back neither adds nor removes a name of a block. -/
theorem named_traverseStrings (hN : ∀ s, Placeholder.blockName? s.toList = none → N s = none) :
    ∀ (v : Json) {p : Placeholders}, p.WellFormed →
      ((v.traverseStrings Placeholders.reinstateString).run p).1.values.filterMap N
        = v.values.filterMap N
  | .null, _, _ | .bool _, _, _ | .number _, _, _ => rfl
  | .string s, _, hp => WellFormed.named_reinstateString hN s hp
  | .array items, _, hp => named_traverseItems hN items hp
  | .object fields, _, hp => named_traverseFields hN fields hp

theorem named_traverseItems (hN : ∀ s, Placeholder.blockName? s.toList = none → N s = none) :
    ∀ (items : List Json) {p : Placeholders}, p.WellFormed →
      (valuesOfItems ((traverseItems Placeholders.reinstateString items).run p).1).filterMap N
        = (valuesOfItems items).filterMap N
  | [], _, _ => rfl
  | item :: rest, p, hp => by
    have h₁ := named_traverseStrings hN item hp
    have h₂ := named_traverseItems hN rest (hp.reinstate item)
    rw [valuesOfItems_cons, List.filterMap_append, ← h₁, ← h₂, ← List.filterMap_append]
    rfl

theorem named_traverseFields (hN : ∀ s, Placeholder.blockName? s.toList = none → N s = none) :
    ∀ (fields : Fields) {p : Placeholders}, p.WellFormed →
      (valuesOfFields ((traverseFields Placeholders.reinstateString fields).run p).1).filterMap N
        = (valuesOfFields fields).filterMap N
  | [], _, _ => rfl
  | (_, value) :: rest, p, hp => by
    have h₁ := named_traverseStrings hN value hp
    have h₂ := named_traverseFields hN rest (hp.reinstate value)
    rw [valuesOfFields_cons, List.filterMap_append, ← h₁, ← h₂, ← List.filterMap_append]
    rfl

end

end Reinstating

namespace Placeholders

theorem namedIn_reinstate (p : Placeholders) {q : Placeholders} (hq : q.WellFormed) (v : Json) :
    p.namedIn (q.reinstate v).1 = p.namedIn v := by
  refine named_traverseStrings (fun s hs => ?_) v hq
  simp [namedBlock?, hs]

theorem firstItem?_reinstate (q : Placeholders) (v : Json) :
    (q.reinstate v).1.firstItem? = v.firstItem?.map fun i => (q.reinstate i).1 := by
  match v with
  | .null | .bool _ | .number _ | .object _ | .array [] | .array (_ :: _) => rfl
  | .string s =>
    change (reinstateString s q).1.firstItem? = none
    unfold reinstateString
    split <;> rfl

/-- What a block refers to, before the expressions are put back. -/
theorem references_of_markless {p : Placeholders} (hp : p.WellFormed) {t : List Char}
    (ht : RepeatBlock.Markless t) :
    p.references t
      = (((Json.read (quoteChains t p).1).toOption.bind Json.firstItem?).map
          p.namedIn).getD [] := by
  have hwf := hp.quoteChains t
  unfold references firstItem? readTemplate toPlainJson
  rw [RepeatBlock.extract_of_markless ht]
  dsimp only
  cases Json.read (quoteChains t p).1 with
  | error e => rfl
  | ok v =>
    simp only [firstItem?_reinstate, Except.toOption, Option.bind_some, Option.map_map]
    congr 2
    funext i
    exact namedIn_reinstate p hwf i

end Placeholders

mutual

theorem named_of_matching {N : String → Option String} {R : String → String → Prop}
    (hN : ∀ x y, R x y → N x = N y) : ∀ {v v' : Json}, Matching R v v' →
      v.values.filterMap N = v'.values.filterMap N
  | .null, .null, _ | .bool _, .bool _, _ | .number _, .number _, _ => rfl
  | .string x, .string y, h => by
    simp only [values_string, List.filterMap_cons, hN x y h]
  | .array vs, .array vs', h => namedItems_of_matching hN h
  | .object fs, .object fs', h => namedFields_of_matching hN h

theorem namedItems_of_matching {N : String → Option String} {R : String → String → Prop}
    (hN : ∀ x y, R x y → N x = N y) : ∀ {vs vs' : List Json}, MatchingItems R vs vs' →
      (valuesOfItems vs).filterMap N = (valuesOfItems vs').filterMap N
  | [], [], _ => rfl
  | v :: vs, v' :: vs', h => by
    simp only [valuesOfItems_cons, List.filterMap_append, named_of_matching hN h.1,
      namedItems_of_matching hN h.2]

theorem namedFields_of_matching {N : String → Option String} {R : String → String → Prop}
    (hN : ∀ x y, R x y → N x = N y) : ∀ {fs fs' : Fields}, MatchingFields R fs fs' →
      (valuesOfFields fs).filterMap N = (valuesOfFields fs').filterMap N
  | [], [], _ => rfl
  | (_, v) :: fs, (_, v') :: fs', h => by
    simp only [valuesOfFields_cons, List.filterMap_append, named_of_matching hN h.2.1,
      namedFields_of_matching hN h.2.2]

end

theorem Placeholders.namedIn_of_matching (p : Placeholders) {m n : Nat} {v v' : Json}
    (h : Matching (Renumbered m n) v v') : p.namedIn v = p.namedIn v' := by
  refine named_of_matching (fun x y hxy => ?_) h
  rcases hxy with ⟨rfl, -⟩ | ⟨i, rfl, rfl⟩
  · rfl
  · simp [namedBlock?, Placeholder.blockName?_ofExpression]

/-- The references of a transparent block are the same with every table. -/
theorem Placeholders.Alike.references_eq {p q : Placeholders} (hp : p.WellFormed) (h : p.Alike q)
    {t : List Char} (hm : RepeatBlock.Markless t) (ht : Transparent t) :
    q.references t = p.references t := by
  rw [references_of_markless h.wellFormed hm, references_of_markless hp hm]
  have hmatch := matching_read ht q p
  have hrel := Piece.rel_bind hmatch fun v v' hv => Matching.firstItem? hv
  generalize (Json.read (quoteChains t q).1).toOption.bind Json.firstItem? = i at hrel ⊢
  generalize (Json.read (quoteChains t p).1).toOption.bind Json.firstItem? = i' at hrel ⊢
  cases hrel with
  | none => rfl
  | some hi =>
    simp only [Option.map_some, Option.getD_some]
    rw [namedIn_congr h.blocks, p.namedIn_of_matching hi]

end JsonTemplate
