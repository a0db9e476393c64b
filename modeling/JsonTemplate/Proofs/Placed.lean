import JsonTemplate.Proofs.Contents
import JsonTemplate.Proofs.Seams
import JsonTemplate.Proofs.Tidy

/-!
# Where placeholders may stand

A concatenation is only put back where it is a value, and a block is only looked for in a string of
its own. Where both stand in such places (`Piece.Placed`), what a tidy text is read as has harmless
strings and the placeholders of blocks for values, and unmarked names (`harmless_of_read`).
-/

namespace JsonTemplate

open Text Resolving

namespace Piece

/-- No concatenation is the name of a field, or has a block within it but in the arguments of a
directive, where the evaluation leaves it. No name is a block or has one in its arguments. -/
def Placed : List Piece → Prop
  | [] => True
  | .other _ :: rest => Placed rest
  | .chained chain :: rest =>
    (1 < chain.operands.length →
        (Unmarked chain.text ∨ Harmless (String.ofList (trim chain.text)))
          ∧ isColonNext rest = false)
      ∧ (isColonNext rest = true → Unmarked chain.text) ∧ Placed rest

instance Placed.decidable : ∀ ps : List Piece, Decidable (Placed ps)
  | [] => inferInstanceAs (Decidable True)
  | .other _ :: rest => decidable rest
  | .chained chain :: rest =>
    have := decidable rest
    inferInstanceAs (Decidable
      ((1 < chain.operands.length →
          (Unmarked chain.text ∨ Harmless (String.ofList (trim chain.text)))
            ∧ isColonNext rest = false)
        ∧ (isColonNext rest = true → Unmarked chain.text) ∧ Placed rest))

theorem Placed.unmarked_or_harmless {chain : Chain} (hlen : 1 < chain.operands.length) :
    ∀ ps : List Piece, Placed ps → .chained chain ∈ ps →
      Unmarked chain.text ∨ Harmless (String.ofList (trim chain.text))
  | .other c :: rest, h, hc => by
    rcases List.mem_cons.1 hc with hc | hc
    · cases hc
    · exact Placed.unmarked_or_harmless hlen rest h hc
  | .chained chain' :: rest, h, hc => by
    rcases List.mem_cons.1 hc with hc | hc
    · cases hc
      exact (h.1 hlen).1
    · exact Placed.unmarked_or_harmless hlen rest h.2.2 hc

/-- A name is read from an unmarked literal or token. -/
theorem Placed.mem_names {x : String} : ∀ (ps : List Piece) {p : Placeholders}, Placed ps →
    x ∈ names ps p → ∃ chain, .chained chain ∈ ps ∧ ¬ 1 < chain.operands.length
      ∧ Unmarked chain.text ∧ ∃ q, chain.content? q = some x
  | .other c :: rest, p, h, hx => by
    obtain ⟨chain, hc, hchain⟩ := Placed.mem_names rest (p := p) h hx
    exact ⟨chain, List.mem_cons_of_mem _ hc, hchain⟩
  | .chained chain :: rest, p, h, hx => by
    rw [names_chained] at hx
    rcases List.mem_append.1 hx with hx | hx
    · split at hx
      · rename_i hcolon
        rw [Option.mem_toList] at hx
        refine ⟨chain, List.mem_cons_self, fun hlen => ?_, h.2.1 hcolon, p, hx⟩
        have := (h.1 hlen).2
        rw [hcolon] at this
        cases this
      · cases hx
    · obtain ⟨chain', hc, hchain⟩ := Placed.mem_names rest h.2.2 hx
      exact ⟨chain', List.mem_cons_of_mem _ hc, hchain⟩

end Piece

/-! ## Placeholders are not harmless -/

theorem not_unmarked_ofExpression (n : Nat) :
    ¬ Unmarked (Placeholder.ofExpression n).toList := by
  intro h
  refine h _ List.mem_cons_self ⟨[], natText n ++ ['_', '_'], ?_⟩
  rw [Placeholder.toList_ofExpression, Placeholder.toList_expressionStart]
  simp

theorem not_unmarked_ofBlock (n : Nat) :
    ¬ Unmarked (Placeholder.ofBlock (Placeholder.blockName n)).toList := by
  intro h
  refine h _ (List.mem_cons_of_mem _ List.mem_cons_self)
    ⟨[], (Placeholder.blockName n).toList ++ ['_', '_'], ?_⟩
  rw [Placeholder.toList_ofBlock, Placeholder.toList_blockStart]
  simp

/-- A string without signs is its only word. -/
theorem Resolving.Harmless.unmarked {s : String} (h : Harmless s) (hs : '@' ∉ s.toList) :
    Unmarked s.toList := by
  have htoken : ¬ Token.isToken s.toList = true := by
    intro ht
    obtain ⟨u, hu⟩ := Token.exists_eq_of_isToken ht
    rw [hu] at hs
    exact hs List.mem_cons_self
  have hlikely : ¬ Expression.isLikely s.toList = true := by
    simp [Expression.isLikely, hs]
  refine h _ ?_
  rw [words, if_neg htoken]
  dsimp only
  rw [if_neg hlikely]
  exact List.mem_singleton_self _

theorem not_harmless_ofExpression (n : Nat) : ¬ Harmless (Placeholder.ofExpression n) := by
  refine fun h => not_unmarked_ofExpression n (h.unmarked fun hm => ?_)
  have := Placeholder.isNameChar_of_mem_ofExpression hm
  revert this
  decide

theorem not_harmless_ofBlock (n : Nat) :
    ¬ Harmless (Placeholder.ofBlock (Placeholder.blockName n)) := by
  refine fun h => not_unmarked_ofBlock n (h.unmarked fun hm => ?_)
  have := Placeholder.isNameChar_of_mem_ofBlock hm
  revert this
  decide

theorem Placeholder.IsBlockBelow.ne_ofExpression {k : Nat} {s : String}
    (h : IsBlockBelow k s.toList) (n : Nat) : s ≠ ofExpression n := by
  rintro rfl
  obtain ⟨m, -, hm⟩ := h
  exact ofBlock_ne_ofExpression _ _ (String.toList_inj.1 hm).symm

/-! ## Tidy texts -/

namespace Tidy

variable {k : Nat} {p q : Placeholders} {t : List Char} {chain : Chain} {x : String}

/-- The name and the method of a token stand between two quotes, beside a character that is in no
placeholder. -/
theorem unmarked_path {before rest : List Char} {token : Token} (h : Tidy k t)
    (hk : token.WellFormed) (ht : t = before ++ (token.text ++ rest)) :
    Unmarked (Directive.ofToken token).path.toList := by
  have hchars : ∀ c ∈ token.name ++ Token.methodText token.method,
      Token.isNameChar c = true ∨ c = '.' := by
    intro c hc
    rcases List.mem_append.1 hc with hc | hc
    · exact .inl (hk.name.isNameChar c hc)
    · cases hm : token.method with
      | none =>
        rw [hm] at hc
        cases hc
      | some m =>
        rw [hm] at hc
        rcases List.mem_cons.1 hc with hc | hc
        · exact .inr hc
        · exact .inl ((hk.method m hm).isNameChar c hc)
  have hquote : '"' ∉ '@' :: (token.name ++ Token.methodText token.method) := by
    intro hm
    rcases List.mem_cons.1 hm with hm | hm
    · cases hm
    · rcases hchars _ hm with hm | hm
      · revert hm
        decide
      · cases hm
  have htext : token.text ++ rest = '@' :: (token.name ++ Token.methodText token.method)
      ++ (Token.argumentsText token.arguments ++ rest) := by
    simp [Token.text]
  obtain ⟨s, hs, hpart⟩ := exists_mem_splitOn (a := before)
    (b := Token.argumentsText token.arguments ++ rest) hquote
  rw [← htext, ← ht] at hs
  rw [Directive.toList_path]
  rcases h.unmarked s hs with hs | hs
  · exact hs.part ((List.suffix_cons _ _).isInfix.trans hpart)
  · have := hs.isNameChar '@' (hpart.subset List.mem_cons_self)
    cases this

/-- A literal or a token of a tidy text is harmless, unless it is a block. -/
theorem harmless_content (h : Tidy k t) (he : Json.Escapeless t)
    (hc : .chained chain ∈ Piece.cut t) (hlen : ¬ 1 < chain.operands.length)
    (hx : chain.content? q = some x) :
    (Harmless x ∨ Placeholder.IsBlockBelow k x.toList) ∧ x.toList <:+: chain.text := by
  obtain ⟨before, rest, ht, hsplit⟩ := Piece.mem_cut hc
  have hno := he.part (s := chain.text) ⟨before, rest, by rw [ht]; simp⟩
  rcases Chain.content?_cases hsplit hno hx with
    ⟨-, hbody, hquote⟩ | ⟨token, hk, htext, -, rfl⟩ | ⟨hlen', -⟩
  · have hmem : x.toList ∈ splitOn '"' t := by
      have := mem_splitOn (a := before) (b := rest) hquote
      rw [ht, hbody]
      simpa using this
    have hpart : x.toList <:+: chain.text := ⟨['"'], ['"'], by rw [hbody]; rfl⟩
    exact ⟨(h.unmarked _ hmem).imp_left fun hu => harmless_of_unmarked hu (hno.part hpart), hpart⟩
  · have hk := Token.wellFormed_of_split? hk
    rw [htext] at ht ⊢
    rw [String.toList_ofList]
    exact ⟨.inl (harmless_of_token hk (h.unmarked_path hk ht)), List.infix_rfl⟩
  · exact absurd hlen' hlen

theorem fresh (h : Tidy k t) (he : Json.Escapeless t) : Piece.Fresh (Piece.cut t) := by
  intro chain hc hlen q x n hx
  rcases (h.harmless_content he hc hlen hx).1 with hx | hx
  · rintro rfl
    exact not_harmless_ofExpression n hx
  · exact hx.ne_ofExpression n

/-- A name of a tidy text is unmarked. -/
theorem unmarked_name (h : Tidy k t) (he : Json.Escapeless t)
    (hplaced : Piece.Placed (Piece.cut t)) (hx : x ∈ Piece.names (Piece.cut t) q) :
    Unmarked x.toList := by
  obtain ⟨chain, hc, hlen, hu, q, hx⟩ := hplaced.mem_names _ hx
  exact hu.part (h.harmless_content he hc hlen hx).2

end Tidy

/-- What a tidy text is read as, with its expressions put back. -/
theorem harmless_of_read {k : Nat} {p : Placeholders} {t : List Char} (hp : p.WellFormed)
    (ht : Tidy k t) (he : Json.Escapeless t) (hplaced : Piece.Placed (Piece.cut t)) {v : Json}
    (h : Json.read (quoteChains t p).1 = .ok v) :
    (∀ s ∈ ((quoteChains t p).2.reinstate v).1.values,
        (Harmless s ∨ Placeholder.IsBlockBelow k s.toList) ∧ s.toList <:+: t)
      ∧ ∀ k ∈ ((quoteChains t p).2.reinstate v).1.keys, Unmarked k.toList := by
  have hfresh := ht.fresh he
  refine ⟨fun s hs => ?_, fun k hk =>
    ht.unmarked_name he hplaced (mem_names_of_mem_keys hp hfresh h hk)⟩
  obtain ⟨chain, hc, hcases⟩ := exists_chain_of_mem_values hp hfresh h hs
  obtain ⟨before, rest, heq, -⟩ := Piece.mem_cut hc
  have htext : chain.text <:+: t := ⟨before, rest, by rw [heq]; simp⟩
  rcases hcases with ⟨hlen, q, hq⟩ | ⟨hlen, rfl⟩
  · obtain ⟨hharm, hpart⟩ := ht.harmless_content he hc hlen hq
    exact ⟨hharm, hpart.trans htext⟩
  · have hpart := trim_isInfix chain.text
    rw [String.toList_ofList]
    refine ⟨.inl ?_, hpart.trans htext⟩
    rcases Piece.Placed.unmarked_or_harmless hlen _ hplaced hc with hu | hharm
    · refine harmless_of_unmarked ?_ ?_ <;> rw [String.toList_ofList]
      · exact hu.part hpart
      · exact he.part (hpart.trans htext)
    · exact hharm

/-- A block that a tidy text names has a number below `k`, wherever concatenations stand. -/
theorem exists_number_of_read {k : Nat} {p q : Placeholders} {t : List Char} (hp : p.WellFormed)
    (hq : q.WellFormed) (ht : Tidy k t) (he : Json.Escapeless t) {v : Json}
    (h : Json.read (quoteChains t p).1 = .ok v) {s name : String} {b : RepeatBlock}
    (hs : s ∈ ((quoteChains t p).2.reinstate v).1.values)
    (hname : q.namedBlock? s = some (name, b)) :
    ∃ n < k, name = Placeholder.blockName n := by
  obtain ⟨chain, hc, ⟨hlen, q', hcontent⟩ | ⟨hlen, rfl⟩⟩ :=
    exists_chain_of_mem_values hp (ht.fresh he) h hs
  · rcases (ht.harmless_content he hc hlen hcontent).1 with hharm | ⟨n, hn, hs⟩
    · rw [hq.namedBlock?_eq_none] at hname
      · cases hname
      · rintro n rfl
        exact not_harmless_ofBlock n hharm
    · refine ⟨n, hn, ?_⟩
      rw [Placeholders.namedBlock?, hs, Placeholder.blockName?_ofBlock, Option.bind_some,
        String.ofList_toList] at hname
      obtain ⟨b', -, heq⟩ := Option.map_eq_some_iff.1 hname
      exact (congrArg Prod.fst heq).symm
  · obtain ⟨before, rest, -, hsplit⟩ := Piece.mem_cut hc
    rw [Placeholders.namedBlock?, String.toList_ofList, Chain.blockName?_trim hsplit] at hname
    cases hname

end JsonTemplate
