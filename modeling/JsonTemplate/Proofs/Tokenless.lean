import JsonTemplate.Proofs.Slots

/-!
# Texts without tokens

A text is tokenless if no token begins outside its strings. Replacing the chains of a text leaves a
tokenless one (`tokenless_quoteChains`), since a sign that is no token before is none after it; and
a tokenless text stays as it is (`Tokenless.quoteChains_eq`). So replacing them once is enough
(`quoteChains_quoteChains`).
-/

namespace JsonTemplate

open Text Json

theorem Token.split?_eq_none_iff {c : Char} {t : List Char} :
    split? (c :: t) = none ↔ c = '@' → splitName? t = none := by
  by_cases hc : c = '@'
  · subst hc
    cases hn : splitName? t <;> simp [split?, hn]
  · have hnone : split? (c :: t) = none := by
      unfold split?
      split
      · rename_i heq
        exact absurd (List.cons.inj heq).1 hc
      · rfl
    simp [hnone, hc]

/-- From a spot on, no token begins outside the strings. -/
def TokenlessFrom (s : Spot) (t : List Char) : Prop :=
  ∀ before rest, t = before ++ rest → (s.after before).IsClosed → Token.split? rest = none

def Tokenless (t : List Char) : Prop :=
  TokenlessFrom .outside t

theorem tokenless_of_notMem {t : List Char} (ht : '@' ∉ t) : Tokenless t := by
  rintro before rest rfl -
  cases rest with
  | nil => rfl
  | cons c rest => exact Token.split?_eq_none_iff.2 fun hc => absurd (by simp [hc]) ht

theorem tokenlessFrom_nil (s : Spot) : TokenlessFrom s [] := by
  intro before rest h _
  rw [(List.append_eq_nil_iff.1 h.symm).2]
  rfl

theorem tokenlessFrom_cons {s : Spot} {c : Char} {t : List Char} :
    TokenlessFrom s (c :: t)
      ↔ (s.IsClosed → Token.split? (c :: t) = none) ∧ TokenlessFrom (s.next c) t := by
  constructor
  · intro h
    exact ⟨fun hs => h [] (c :: t) rfl hs,
      fun before rest ht => h (c :: before) rest (by rw [ht]; rfl)⟩
  · rintro ⟨hhead, htail⟩ before rest ht hs
    cases before with
    | nil =>
      rw [List.nil_append] at ht
      exact ht ▸ hhead hs
    | cons d before =>
      obtain ⟨rfl, rfl⟩ := List.cons.inj ht
      exact htail before rest rfl hs

theorem TokenlessFrom.after {s : Spot} {t u : List Char} (h : TokenlessFrom s (t ++ u)) :
    TokenlessFrom (s.after t) u := by
  intro before rest hu hs
  rw [Spot.after, Spot.after, ← List.foldl_append] at hs
  exact h (t ++ before) rest (by rw [hu, List.append_assoc]) hs

theorem tokenlessFrom_iff_of_isClosed {s : Spot} (hs : s.IsClosed) {t : List Char} :
    TokenlessFrom s t ↔ Tokenless t := by
  constructor
  · intro h before rest ht hclosed
    exact h before rest ht ((hs.after_congr (.inl rfl) before).2 hclosed)
  · intro h before rest ht hclosed
    exact h before rest ht ((hs.after_congr (.inl rfl) before).1 hclosed)

/-! ## Tokenless texts stay -/

/-- The spot within a string. -/
def Spot.inside (escaped : Bool) : Spot :=
  if escaped then .escaped else .within

theorem Spot.next_inside {c : Char} (hc : c ≠ '"') :
    (inside false).next c = inside (c == '\\') := by
  by_cases hslash : c = '\\' <;> simp [inside, next, hc, hslash]

theorem TokenlessFrom.splitQuoted : ∀ {t : List Char} {escaped : Bool},
    TokenlessFrom (.inside escaped) t → Tokenless (Operand.splitQuoted escaped t).2
  | [], escaped, _ => by cases escaped <;> exact tokenlessFrom_nil _
  | c :: t, true, h => by
    have ht : TokenlessFrom (.inside false) t := (tokenlessFrom_cons.1 h).2
    exact ht.splitQuoted
  | c :: t, false, h => by
    have ht := (tokenlessFrom_cons.1 h).2
    by_cases hc : c = '"'
    · subst hc
      rw [Operand.splitQuoted, if_pos rfl]
      exact (tokenlessFrom_iff_of_isClosed (.inr rfl)).1 ht
    · rw [Operand.splitQuoted, if_neg hc]
      rw [Spot.next_inside hc] at ht
      exact ht.splitQuoted

/-- An operand of a tokenless text is a literal, and what follows it is tokenless. -/
theorem Tokenless.operand {t rest : List Char} {o : Operand} (h : Tokenless t)
    (ho : Operand.split? t = some (o, rest)) : o.isToken = false ∧ Tokenless rest := by
  rcases Operand.split?_eq_some ho with ⟨u, rfl, rfl, rfl⟩ | ⟨k, hk, -⟩
  · have hu : TokenlessFrom (.inside false) u := (tokenlessFrom_cons.1 h).2
    exact ⟨rfl, hu.splitQuoted⟩
  · rw [h [] t rfl (.inl rfl)] at hk
    cases hk

theorem Tokenless.splitJoin? {t join rest : List Char} {o : Operand} (h : Tokenless t)
    (hj : splitJoin? t = some (join, o, rest)) : o.isToken = false ∧ Tokenless rest := by
  obtain ⟨before, after, u, hb, ha, rfl, rfl, ho⟩ := splitJoin?_eq_some hj
  have hquote : '"' ∉ before ++ '+' :: after := by
    rw [List.mem_append, List.mem_cons, not_or, not_or]
    exact ⟨fun hm => absurd (hb _ hm) (by decide), by decide,
      fun hm => absurd (ha _ hm) (by decide)⟩
  have hclosed : (Spot.outside.after (before ++ '+' :: after)).IsClosed :=
    Spot.IsClosed.after (.inl rfl) hquote
  exact ((tokenlessFrom_iff_of_isClosed hclosed).1 h.after).operand ho

theorem Tokenless.splitJoined {t : List Char} (h : Tokenless t) :
    (∀ o ∈ (Chain.splitJoined t).1.operands, o.isToken = false)
      ∧ Tokenless (Chain.splitJoined t).2 := by
  fun_induction Chain.splitJoined t with
  | case1 t => exact ⟨by simp, h⟩
  | case2 t join o rest hj chain rest' heq ih =>
    obtain ⟨ho, hrest⟩ := h.splitJoin? hj
    obtain ⟨hos, hrest'⟩ := ih hrest
    rw [heq] at hos hrest'
    exact ⟨List.forall_mem_cons.2 ⟨ho, hos⟩, hrest'⟩

theorem Tokenless.chain {t rest : List Char} {chain : Chain} (h : Tokenless t)
    (hc : Chain.split? t = some (chain, rest)) :
    chain.operands.any Operand.isToken = false ∧ Tokenless rest := by
  obtain ⟨o, rest', ho, rfl, rfl⟩ := Chain.split?_eq_some hc
  obtain ⟨hliteral, hrest'⟩ := h.operand ho
  obtain ⟨hliterals, hrest⟩ := hrest'.splitJoined
  refine ⟨List.any_eq_false.2 fun p hp => ?_, hrest⟩
  rcases List.mem_cons.1 hp with rfl | hp
  · rw [hliteral]
    exact Bool.false_ne_true
  · rw [hliterals p hp]
    exact Bool.false_ne_true

/-- A tokenless text stays as it is, and nothing is recorded. -/
theorem Tokenless.quoteChains_eq {t : List Char} (h : Tokenless t) (p : Placeholders) :
    quoteChains t p = (t, p) := by
  fun_induction quoteChains t p with
  | case1 p => rfl
  | case2 p c t hc rest p' heq ih =>
    have ht := (tokenlessFrom_cons.1 h).2
    have hclosed : (Spot.outside.next c).IsClosed :=
      Spot.IsClosed.next (.inl rfl) (Piece.other_ne_quote hc)
    rw [ih ((tokenlessFrom_iff_of_isClosed hclosed).1 ht)] at heq
    cases heq
    rfl
  | case3 p c t chain rest hc replaced p' heq rest' p'' heq' ih =>
    obtain ⟨hliterals, hrest⟩ := h.chain hc
    rw [Chain.toPlain, if_neg (by rw [hliterals]; exact Bool.false_ne_true)] at heq
    cases heq
    rw [ih hrest] at heq'
    cases heq'
    rw [Chain.split?_append hc]

/-! ## What is left is tokenless -/

/-- Outside the strings the text has no sign of a directive. -/
def Spot.Silent : Spot → List Char → Prop
  | _, [] => True
  | s, c :: t => (s.IsClosed → c ≠ '@') ∧ Silent (s.next c) t

namespace Spot

variable {s : Spot} {t u rest : List Char}

theorem Silent.append : ∀ {t : List Char} {s : Spot}, s.Silent t → (s.after t).Silent u →
    s.Silent (t ++ u)
  | [], _, _, hu => hu
  | _ :: _, _, ht, hu => ⟨ht.1, Silent.append ht.2 hu⟩

theorem silent_of_notMem : ∀ {t : List Char} {s : Spot}, '@' ∉ t → s.Silent t
  | [], _, _ => trivial
  | c :: _, _, h => ⟨fun _ hc => h (hc ▸ List.mem_cons_self),
      silent_of_notMem fun hc => h (List.mem_cons_of_mem c hc)⟩

theorem Silent.tokenlessFrom : ∀ {t : List Char} {s : Spot}, s.Silent t →
    TokenlessFrom (s.after t) u → TokenlessFrom s (t ++ u)
  | [], _, _, hu => hu
  | _ :: _, _, ht, hu => tokenlessFrom_cons.2
      ⟨fun hs => Token.split?_eq_none_iff.2 fun hc => absurd hc (ht.1 hs), ht.2.tokenlessFrom hu⟩

/-- Passing over a text meets no sign outside the strings, and comes out of them unless nothing
follows. -/
structure Skips (s : Spot) (t rest : List Char) : Prop where
  silent : s.Silent t
  closed : rest ≠ [] → (s.after t).IsClosed

theorem Skips.append (ht : s.Skips t (u ++ rest)) (hu : ∀ {s : Spot}, s.IsClosed → s.Skips u rest) :
    s.Skips (t ++ u) rest := by
  by_cases hnil : u ++ rest = []
  · obtain ⟨rfl, rfl⟩ := List.append_eq_nil_iff.1 hnil
    rw [List.append_nil]
    exact ⟨ht.silent, fun h => absurd rfl h⟩
  · have hskips := hu (ht.closed hnil)
    refine ⟨ht.silent.append hskips.silent, fun hrest => ?_⟩
    rw [after, List.foldl_append]
    exact hskips.closed hrest

theorem Skips.tokenless (ht : s.Skips t rest) (hs : s.IsClosed) (hrest : Tokenless rest) :
    Tokenless (t ++ rest) := by
  refine (tokenlessFrom_iff_of_isClosed hs).1 (ht.silent.tokenlessFrom ?_)
  by_cases hnil : rest = []
  · rw [hnil]
    exact tokenlessFrom_nil _
  · exact (tokenlessFrom_iff_of_isClosed (ht.closed hnil)).2 hrest

theorem skips_of_notMem (hs : s.IsClosed) (hsign : '@' ∉ t) (hquote : '"' ∉ t) : s.Skips t rest :=
  ⟨silent_of_notMem hsign, fun _ => hs.after hquote⟩

theorem skips_splitQuoted : ∀ (t : List Char) (b : Bool),
    (inside b).Skips (Operand.splitQuoted b t).1 (Operand.splitQuoted b t).2
  | [], b => by cases b <;> exact ⟨trivial, fun h => absurd rfl h⟩
  | c :: t, true => by
    have hopen : ¬ (inside true).IsClosed := by decide
    have ih := skips_splitQuoted t false
    exact ⟨⟨fun hs => absurd hs hopen, ih.silent⟩, ih.closed⟩
  | c :: t, false => by
    have hopen : ¬ (inside false).IsClosed := by decide
    by_cases hc : c = '"'
    · rw [Operand.splitQuoted, if_pos hc, hc]
      exact ⟨⟨fun hs => absurd hs hopen, trivial⟩, fun _ => .inr rfl⟩
    · have ih := skips_splitQuoted t (c == '\\')
      rw [← next_inside hc] at ih
      rw [Operand.splitQuoted, if_neg hc]
      exact ⟨⟨fun hs => absurd hs hopen, ih.silent⟩, ih.closed⟩

theorem skips_literal (hs : s.IsClosed) (t : List Char) :
    s.Skips ('"' :: (Operand.splitQuoted false t).1) (Operand.splitQuoted false t).2 := by
  have h := skips_splitQuoted t false
  rw [show inside false = s.next '"' from hs.next_quote.symm] at h
  exact ⟨⟨fun _ => by decide, h.silent⟩, h.closed⟩

theorem skips_quoted (hs : s.IsClosed) (t rest : List Char) : s.Skips (quoted t) rest := by
  have hcloses := Literal.closes ⟨t.flatMap escapeChar, String.ofList t, read_quoted t⟩
  have h := skips_literal hs (t.flatMap escapeChar ++ ['"'] ++ ['"'])
  rw [hcloses ['"']] at h
  exact ⟨h.silent, fun _ => h.closed (List.cons_ne_nil _ _)⟩

end Spot

open Spot

theorem Chain.skips_splitJoined {t : List Char} {s : Spot} (hs : s.IsClosed)
    (h : (splitJoined t).1.operands.any Operand.isToken = false) :
    s.Skips (splitJoined t).1.text (splitJoined t).2 := by
  fun_induction splitJoined t generalizing s with
  | case1 t => exact ⟨trivial, fun _ => hs⟩
  | case2 t join o rest hj chain rest' heq ih =>
    rw [heq] at ih
    rw [List.any_cons, Bool.or_eq_false_iff] at h
    obtain ⟨before, after, u, hb, ha, rfl, rfl, ho⟩ := splitJoin?_eq_some hj
    have hnot : ∀ {c : Char}, isJsonBlank c = false → c ≠ '+' → c ∉ before ++ '+' :: after := by
      intro c hblank hplus hm
      rcases List.mem_append.1 hm with hm | hm
      · rw [hb c hm] at hblank
        cases hblank
      · rcases List.mem_cons.1 hm with hm | hm
        · exact hplus hm
        · rw [ha c hm] at hblank
          cases hblank
    have hrest := splitJoined_append rest
    rw [heq] at hrest
    rcases Operand.split?_eq_some ho with ⟨v, rfl, rfl, rfl⟩ | ⟨k, -, rfl⟩
    · rw [List.append_assoc]
      refine (skips_of_notMem hs (hnot rfl (by decide)) (hnot rfl (by decide))).append fun hs => ?_
      have hliteral := skips_literal hs v
      rw [← hrest] at hliteral
      exact hliteral.append fun hs => ih hs h.2
    · cases h.1

theorem Chain.skips_toPlain {t rest : List Char} {chain : Chain}
    (h : split? t = some (chain, rest)) (p : Placeholders) {s : Spot} (hs : s.IsClosed) :
    s.Skips (chain.toPlain p).1 rest := by
  unfold toPlain
  split
  · split
    · have hquoted := quoted_of_isNameChar fun c hc =>
        Placeholder.isNameChar_of_mem_ofExpression (n := p.nextExpression) hc
      have := skips_quoted hs (Placeholder.ofExpression p.nextExpression).toList rest
      rwa [hquoted] at this
    · exact skips_quoted hs chain.text rest
  · rename_i hany
    obtain ⟨o, rest', ho, rfl, rfl⟩ := split?_eq_some h
    rw [List.any_cons, Bool.not_eq_true, Bool.or_eq_false_iff] at hany
    rcases Operand.split?_eq_some ho with ⟨u, rfl, rfl, rfl⟩ | ⟨k, -, rfl⟩
    · have hliteral := skips_literal hs u
      rw [← splitJoined_append (Operand.splitQuoted false u).2] at hliteral
      exact hliteral.append fun hs => skips_splitJoined hs hany.2
    · cases hany.1

theorem Chain.exists_toPlain_eq {t rest : List Char} {chain : Chain}
    (h : split? t = some (chain, rest)) (p : Placeholders) :
    ∃ u, (chain.toPlain p).1 = '"' :: u := by
  unfold toPlain
  split
  · split
    · exact ⟨_, rfl⟩
    · exact ⟨_, rfl⟩
  · rename_i hany
    obtain ⟨o, rest', ho, rfl, rfl⟩ := split?_eq_some h
    rcases Operand.split?_eq_some ho with ⟨u, rfl, rfl, rfl⟩ | ⟨k, -, rfl⟩
    · exact ⟨_, rfl⟩
    · simp [Operand.isToken] at hany

/-- What is left begins as the text does, or with the quote of what stands for its first chain. -/
theorem head?_quoteChains (t : List Char) (p : Placeholders) :
    (quoteChains t p).1.head? = t.head? ∨ (quoteChains t p).1.head? = some '"' := by
  fun_cases quoteChains t p with
  | case1 => exact .inl rfl
  | case2 => exact .inl rfl
  | case3 c t chain rest hc replaced p' heq rest' p'' heq' =>
    obtain ⟨u, hu⟩ := Chain.exists_toPlain_eq hc p
    rw [heq] at hu
    obtain rfl : replaced = '"' :: u := hu
    exact .inr rfl

/-- Outside the strings of what is left no token begins. -/
theorem tokenless_quoteChains (t : List Char) (p : Placeholders) :
    Tokenless (quoteChains t p).1 := by
  fun_induction quoteChains t p with
  | case1 p => exact tokenlessFrom_nil _
  | case2 p c t hc rest p' heq ih =>
    rw [heq] at ih
    have hhead := head?_quoteChains t p
    rw [heq] at hhead
    have hclosed : (Spot.outside.next c).IsClosed :=
      Spot.IsClosed.next (.inl rfl) (Piece.other_ne_quote hc)
    refine tokenlessFrom_cons.2 ⟨fun _ => Token.split?_eq_none_iff.2 ?_,
      (tokenlessFrom_iff_of_isClosed hclosed).2 ih⟩
    -- A sign was no token because of the character after it, which is the same, or a quote now.
    rintro rfl
    have hname := (Operand.split?_eq_none_iff.1 (Option.map_eq_none_iff.1 hc)).2 t rfl
    rw [Token.splitName?_eq_none_iff] at hname ⊢
    rcases hhead with hhead | hhead <;> rw [hhead]
    · exact hname
    · rintro d hd
      cases hd
      rfl
  | case3 p c t chain rest hc replaced p' heq rest' p'' heq' ih =>
    rw [heq'] at ih
    have hskips := Chain.skips_toPlain hc p (s := .outside) (.inl rfl)
    rw [heq] at hskips
    refine Spot.Skips.tokenless ⟨hskips.silent, fun hne => hskips.closed ?_⟩ (.inl rfl) ih
    rintro rfl
    rw [quoteChains] at heq'
    cases heq'
    exact hne rfl

/-- Replacing the chains of a text leaves nothing to replace: outside its strings there is no token
any more, wherever one might begin, and a second time, with whatever table, the text stays as it is
and nothing is recorded. -/
theorem quoteChains_quoteChains (t : List Char) (p q : Placeholders) :
    (∀ before rest, (quoteChains t p).1 = before ++ rest → EndsOutside before →
        Token.split? rest = none)
      ∧ quoteChains (quoteChains t p).1 q = ((quoteChains t p).1, q) :=
  ⟨tokenless_quoteChains t p, (tokenless_quoteChains t p).quoteChains_eq q⟩

end JsonTemplate
