import JsonTemplate.Proofs.Reading
import JsonTemplate.Proofs.Registry
import Mathlib.Data.List.Forall2

/-!
# Pieces

A text is cut into chains and the characters between them, whatever the placeholders
(`quoteChains_eq`). Reading it as plain JSON is reading its pieces, where a chain counts as one
string (`readFrom?_quoteAll`): its placeholder, its token or the text of its literal. Literals
joined without a token are not JSON.
-/

namespace JsonTemplate

open Text Json Json.ReaderState

/-- A chain, or a character outside the chains. -/
inductive Piece
  | other (c : Char)
  | chained (chain : Chain)
  deriving DecidableEq

namespace Piece

/-- Cuts a text into pieces. -/
def cut (t : List Char) : List Piece :=
  match t with
  | [] => []
  | c :: t =>
    match _h : Chain.split? (c :: t) with
    | none => .other c :: cut t
    | some (chain, rest) => .chained chain :: cut rest
termination_by t.length
decreasing_by
  · simp
  · exact Chain.length_lt_of_split? ‹_›

def toPlain : Piece → Placeholders → List Char × Placeholders
  | .other c, p => ([c], p)
  | .chained chain, p => chain.toPlain p

/-- What pieces become, one after the other. -/
def quoteAll : List Piece → Placeholders → List Char × Placeholders
  | [], p => ([], p)
  | piece :: rest, p =>
    ((piece.toPlain p).1 ++ (quoteAll rest (piece.toPlain p).2).1,
      (quoteAll rest (piece.toPlain p).2).2)

end Piece

theorem quoteChains_eq (t : List Char) (p : Placeholders) :
    quoteChains t p = Piece.quoteAll (Piece.cut t) p := by
  fun_induction quoteChains t p with
  | case1 p => rw [Piece.cut, Piece.quoteAll]
  | case2 p c t h rest p' heq ih =>
    rw [Piece.cut]
    split
    · rw [Piece.quoteAll, Piece.toPlain, ← ih, heq]
      rfl
    · rename_i h'
      rw [h] at h'
      cases h'
  | case3 p c t chain rest h replaced p' heq rest' p'' heq' ih =>
    rw [Piece.cut]
    split
    · rename_i h'
      rw [h] at h'
      cases h'
    · rename_i h'
      rw [h] at h'
      cases h'
      rw [Piece.quoteAll, Piece.toPlain, heq, ← ih, heq']

namespace Chain

/-- The string that a chain is read as. -/
def content? (chain : Chain) (p : Placeholders) : Option String :=
  match chain.operands with
  | [.token _] => some (String.ofList chain.text)
  | [.literal _] => literalText? chain.text
  | os => if os.any Operand.isToken then some (Placeholder.ofExpression p.nextExpression) else none

end Chain

namespace Piece

/-- The value of pieces that are read from a state on, if there is one. -/
def readAll? : List Piece → Placeholders → ReaderState → Option Json
  | [], _, s => s.close.toOption
  | .other c :: rest, p, s => (s.step c).toOption.bind fun s => readAll? rest p s
  | .chained chain :: rest, p, s =>
    (chain.content? p).bind fun x =>
      (s.takeString? x).bind fun s => readAll? rest (chain.toPlain p).2 s

end Piece

theorem Json.ReaderState.isBetween_endString (frames : List Frame) (role : StringRole)
    (read : List Char) : (endString frames role read).IsBetween := by
  cases role with
  | value => exact isBetween_deliver _ _
  | key fields => trivial

theorem Json.ReaderState.isBetween_takeString? {s s' : ReaderState} {x : String}
    (h : s.takeString? x = some s') : s'.IsBetween := by
  obtain ⟨⟨frames, role⟩, -, rfl⟩ := Option.map_eq_some_iff.1 h
  exact isBetween_endString _ _ _

/-- No sign may follow a string, however many blanks are between. -/
theorem Json.readFrom?_endString_sign (frames : List Frame) (role : StringRole)
    (read u : List Char) : ∀ {blanks : List Char}, (∀ c ∈ blanks, isJsonBlank c = true) →
      readFrom? (endString frames role read) (blanks ++ '+' :: u) = none
  | [], _ => by
    rw [List.nil_append, readFrom?_cons]
    cases role with
    | value => rcases frames with _ | ⟨_ | _, frames⟩ <;> rfl
    | key fields => rfl
  | c :: blanks, h => by
    have hc := h c List.mem_cons_self
    have hstep : ((endString frames role read).step c).toOption
        = some (endString frames role read) := by
      cases role with
      | value =>
        rcases frames with _ | ⟨_ | _, frames⟩ <;>
          simp [endString, deliver, step, afterValue, hc, Except.toOption]
      | key fields => simp [endString, step, hc, Except.toOption]
    rw [List.cons_append, readFrom?_cons, hstep, Option.bind_some]
    exact readFrom?_endString_sign frames role read u fun d hd => h d (List.mem_cons_of_mem _ hd)

/-! ## Chains -/

theorem Operand.split?_eq_some {t rest : List Char} {o : Operand}
    (h : Operand.split? t = some (o, rest)) :
    (∃ u, t = '"' :: u ∧ o = .literal ('"' :: (splitQuoted false u).1)
        ∧ rest = (splitQuoted false u).2)
      ∨ ∃ k, Token.split? t = some (k, rest) ∧ o = .token k.text := by
  unfold split? at h
  split at h
  · rename_i u
    cases h
    exact .inl ⟨u, rfl, rfl, rfl⟩
  · obtain ⟨⟨k, rest'⟩, hs, heq⟩ := Option.map_eq_some_iff.1 h
    cases heq
    exact .inr ⟨k, hs, rfl⟩

theorem Chain.split?_eq_some {t rest : List Char} {chain : Chain}
    (h : Chain.split? t = some (chain, rest)) :
    ∃ o rest', Operand.split? t = some (o, rest') ∧ rest = (splitJoined rest').2
      ∧ chain = ⟨o.text ++ (splitJoined rest').1.text, o :: (splitJoined rest').1.operands⟩ := by
  obtain ⟨⟨o, rest'⟩, hs, heq⟩ := Option.map_eq_some_iff.1 h
  cases heq
  exact ⟨o, rest', hs, rfl, rfl⟩

/-- What is joined on is a sign with blanks around it, and an operand. -/
theorem splitJoin?_eq_some {t join rest : List Char} {o : Operand}
    (h : splitJoin? t = some (join, o, rest)) : ∃ before after u,
      (∀ c ∈ before, isJsonBlank c = true) ∧ (∀ c ∈ after, isJsonBlank c = true)
        ∧ join = before ++ '+' :: after ∧ t = join ++ u ∧ Operand.split? u = some (o, rest) := by
  unfold splitJoin? at h
  split at h
  · rename_i u hu
    obtain ⟨⟨o', rest'⟩, hs, heq⟩ := Option.map_eq_some_iff.1 h
    cases heq
    have hblank : ∀ v : List Char, ∀ c ∈ v.takeWhile isJsonBlank, isJsonBlank c = true :=
      fun v c hc => List.all_eq_true.1 List.all_takeWhile c hc
    have hbefore := List.takeWhile_append_dropWhile (p := isJsonBlank) (l := t)
    have hafter := List.takeWhile_append_dropWhile (p := isJsonBlank) (l := u)
    rw [skipBlanks] at hu
    rw [hu, ← hafter] at hbefore
    exact ⟨_, _, _, hblank t, hblank u, rfl, hbefore.symm.trans (by simp [skipBlanks]), hs⟩
  · cases h

theorem Chain.splitJoined_of_none {t : List Char} (h : splitJoin? t = none) :
    splitJoined t = (⟨[], []⟩, t) := by
  rw [splitJoined]
  split
  · rfl
  · rename_i h'
    rw [h] at h'
    cases h'

theorem Chain.splitJoined_of_some {t join rest : List Char} {o : Operand}
    (h : splitJoin? t = some (join, o, rest)) :
    splitJoined t = (⟨join ++ o.text ++ (splitJoined rest).1.text,
      o :: (splitJoined rest).1.operands⟩, (splitJoined rest).2) := by
  rw [splitJoined]
  split
  · rename_i h'
    rw [h] at h'
    cases h'
  · rename_i h'
    rw [h] at h'
    cases h'
    rfl

/-- Literals that are joined without a token are no JSON, wherever they stand. -/
theorem Json.readFrom?_literal_sign {s : ReaderState} (hs : s.IsBetween) {t u v : List Char}
    {blanks : List Char} (hb : ∀ c ∈ blanks, isJsonBlank c = true)
    (ht : (Operand.splitQuoted false t).2 ≠ []) :
    readFrom? s ('"' :: (Operand.splitQuoted false t).1 ++ (blanks ++ '+' :: u ++ v)) = none := by
  rw [readFrom?_literal hs fun h => absurd h ht]
  cases literalText? ('"' :: (Operand.splitQuoted false t).1) with
  | none => rfl
  | some x =>
    simp only [Option.bind_some, takeString?]
    rcases s.openString? with _ | ⟨frames, role⟩
    · rfl
    · have := readFrom?_endString_sign frames role x.toList.reverse (u ++ v) hb
      simpa using this

/-- A chain is one literal, one token, or more operands than one. -/
theorem Chain.split?_cases {t rest : List Char} {chain : Chain}
    (h : Chain.split? t = some (chain, rest)) :
    (∃ u, t = '"' :: u ∧ rest = (Operand.splitQuoted false u).2
        ∧ chain = ⟨'"' :: (Operand.splitQuoted false u).1,
          [.literal ('"' :: (Operand.splitQuoted false u).1)]⟩)
      ∨ (∃ k, Token.split? t = some (k, rest) ∧ chain = ⟨k.text, [.token k.text]⟩)
      ∨ 1 < chain.operands.length := by
  obtain ⟨o, rest', ho, hrest, hchain⟩ := split?_eq_some h
  cases hj : splitJoin? rest' with
  | none =>
    rw [splitJoined_of_none hj] at hchain hrest
    subst hchain hrest
    rcases Operand.split?_eq_some ho with ⟨u, rfl, rfl, rfl⟩ | ⟨k, hk, rfl⟩
    · exact .inl ⟨u, rfl, rfl, by simp [Operand.text]⟩
    · exact .inr (.inl ⟨k, hk, by simp [Operand.text]⟩)
  | some r =>
    obtain ⟨join, o', rest''⟩ := r
    rw [splitJoined_of_some hj] at hchain
    refine .inr (.inr ?_)
    rw [hchain]
    simp

theorem Chain.content?_of_joined {chain : Chain} (h : 1 < chain.operands.length)
    (p : Placeholders) : chain.content? p = if chain.operands.any Operand.isToken then
      some (Placeholder.ofExpression p.nextExpression) else none := by
  unfold content?
  split
  · rename_i ho
    simp [ho] at h
  · rename_i ho
    simp [ho] at h
  · rfl

/-- What a chain without escapes is read as: the text of its literal, its token, or the next
placeholder. -/
theorem Chain.content?_cases {t rest : List Char} {chain : Chain}
    (h : Chain.split? t = some (chain, rest)) (he : Escapeless chain.text) {p : Placeholders}
    {x : String} (hx : chain.content? p = some x) :
    (chain.operands.length = 1 ∧ chain.text = '"' :: (x.toList ++ ['"']) ∧ '"' ∉ x.toList)
      ∨ (∃ k, Token.split? t = some (k, rest) ∧ chain.text = k.text
          ∧ chain.operands.length = 1 ∧ x = String.ofList k.text)
      ∨ 1 < chain.operands.length ∧ x = Placeholder.ofExpression p.nextExpression := by
  rcases split?_cases h with ⟨u, -, -, rfl⟩ | ⟨k, hk, rfl⟩ | hlen
  · have hno := he.part (List.suffix_cons '"' (Operand.splitQuoted false u).1).isInfix
    obtain ⟨hbody, hquote⟩ := literalText?_of_escapeless hno hx
    exact .inl ⟨rfl, by rw [hbody], hquote⟩
  · cases hx
    exact .inr (.inl ⟨k, hk, rfl, rfl, rfl⟩)
  · rw [content?_of_joined hlen] at hx
    split at hx
    · cases hx
      exact .inr (.inr ⟨hlen, rfl⟩)
    · cases hx

/-- Where a reader is not within a string, a chain counts as one string. -/
theorem Chain.readFrom?_toPlain {t rest u : List Char} {chain : Chain}
    (h : Chain.split? t = some (chain, rest)) {s : ReaderState} (hs : s.IsBetween)
    (hu : rest = [] → u = []) (p : Placeholders) :
    readFrom? s ((chain.toPlain p).1 ++ u) = (chain.content? p).bind fun x =>
      (s.takeString? x).bind fun s => readFrom? s u := by
  rcases split?_cases h with ⟨w, -, rfl, rfl⟩ | ⟨k, -, rfl⟩ | hlen
  · exact readFrom?_literal hs hu
  · exact readFrom?_quoted hs k.text u
  · rw [content?_of_joined hlen]
    by_cases hany : chain.operands.any Operand.isToken = true
    · have hquoted := quoted_of_isNameChar fun c hc =>
        Placeholder.isNameChar_of_mem_ofExpression (n := p.nextExpression) hc
      simp only [toPlain, if_pos hany, if_pos hlen, Placeholders.recordExpression]
      rw [← hquoted, readFrom?_quoted hs, String.ofList_toList]
      rfl
    · rw [if_neg hany, toPlain, if_neg hany]
      obtain ⟨o, rest', ho, -, hchain⟩ := split?_eq_some h
      cases hj : splitJoin? rest' with
      | none =>
        rw [splitJoined_of_none hj] at hchain
        rw [hchain] at hlen
        simp at hlen
      | some r =>
        obtain ⟨join, o', rest''⟩ := r
        rw [splitJoined_of_some hj] at hchain
        obtain ⟨blanks, v, -, hb, -, rfl, -, -⟩ := splitJoin?_eq_some hj
        have hne : rest' ≠ [] := by
          rintro rfl
          cases hj
        rcases Operand.split?_eq_some ho with ⟨w, -, rfl, rfl⟩ | ⟨k, -, rfl⟩
        · have := readFrom?_literal_sign hs hb hne (u := v)
            (v := o'.text ++ (splitJoined rest'').1.text ++ u)
          rw [hchain]
          simpa [Operand.text] using this
        · rw [hchain] at hany
          simp [Operand.isToken] at hany

theorem Chain.split?_cons_eq_none {c : Char} (hquote : c ≠ '"') (hsign : c ≠ '@') (t : List Char) :
    split? (c :: t) = none := by
  simp [split?, Operand.split?, Token.split?, hquote, hsign]

theorem Piece.cut_of_split?_eq_none {c : Char} {t : List Char} (h : Chain.split? (c :: t) = none) :
    cut (c :: t) = .other c :: cut t := by
  rw [cut]
  split
  · rfl
  · rename_i hs
    rw [h] at hs
    cases hs

theorem Piece.cut_of_split? {t rest : List Char} {chain : Chain}
    (h : Chain.split? t = some (chain, rest)) : cut t = .chained chain :: cut rest := by
  cases t with
  | nil => cases h
  | cons c t =>
    rw [cut]
    split
    · rename_i hn
      rw [h] at hn
      cases hn
    · rename_i hs
      rw [h] at hs
      cases hs
      rfl

theorem Piece.cut_cons {c : Char} (hquote : c ≠ '"') (hsign : c ≠ '@') (t : List Char) :
    cut (c :: t) = .other c :: cut t :=
  cut_of_split?_eq_none (Chain.split?_cons_eq_none hquote hsign t)

theorem Piece.other_ne_quote {c : Char} {t : List Char} (h : Chain.split? (c :: t) = none) :
    c ≠ '"' := by
  rintro rfl
  cases h

theorem Piece.other_ne_quote_of_mem {c : Char} {t : List Char} (h : .other c ∈ cut t) :
    c ≠ '"' := by
  fun_induction cut t with
  | case1 => cases h
  | case2 d t hs ih =>
    rcases List.mem_cons.1 h with h | h
    · cases h
      exact other_ne_quote hs
    · exact ih h
  | case3 d t chain rest hs ih =>
    rcases List.mem_cons.1 h with h | h
    · cases h
    · exact ih h

/-- A piece, or a quoted text in the place of a chain. -/
inductive Piece.Stands : Piece → Piece → Prop
  | same (piece : Piece) : Stands piece piece
  | quoted (chain : Chain) (y : List Char) :
    Stands (.chained chain) (.chained ⟨Json.quoted y, [.literal (Json.quoted y)]⟩)

/-- Reading pieces as plain JSON, with quoted texts in the place of some chains, is reading them one
by one. -/
theorem readFrom?_quoteAll_of_stands (t : List Char) (p : Placeholders) {s : ReaderState}
    (hs : s.IsBetween) {ps : List Piece} (h : List.Forall₂ Piece.Stands (Piece.cut t) ps) :
    readFrom? s (Piece.quoteAll ps p).1 = Piece.readAll? ps p s := by
  fun_induction Piece.cut t generalizing p s ps with
  | case1 =>
    cases h
    rw [Piece.quoteAll, Piece.readAll?]
    rfl
  | case2 c t hsplit ih =>
    rcases h with _ | ⟨hpiece, h⟩
    cases hpiece
    rw [Piece.quoteAll, Piece.readAll?, Piece.toPlain, List.singleton_append, readFrom?_cons]
    cases hstep : s.step c with
    | error r => rfl
    | ok s' => exact ih p (isBetween_step hs (Piece.other_ne_quote hsplit) hstep) h
  | case3 c t chain rest hsplit ih =>
    rcases h with _ | ⟨hpiece, h⟩
    cases hpiece with
    | same =>
      rw [Piece.quoteAll, Piece.readAll?, Piece.toPlain, Chain.readFrom?_toPlain hsplit hs]
      · congr 1
        funext x
        cases hx : s.takeString? x with
        | none => rfl
        | some s' => exact ih _ (isBetween_takeString? hx) h
      · rintro rfl
        rw [Piece.cut] at h
        cases h
        rw [Piece.quoteAll]
    | quoted _ y =>
      have hcontent :
          Chain.content? ⟨quoted y, [.literal (quoted y)]⟩ p = some (String.ofList y) := by
        rw [Chain.content?, literalText?, read_quoted]
        rfl
      have hplain : Chain.toPlain ⟨quoted y, [.literal (quoted y)]⟩ p = (quoted y, p) := rfl
      rw [Piece.quoteAll, Piece.readAll?, Piece.toPlain, hplain, readFrom?_quoted hs, hcontent,
        Option.bind_some]
      cases hx : s.takeString? (String.ofList y) with
      | none => rfl
      | some s' => exact ih p (isBetween_takeString? hx) h

/-- Reading a text as plain JSON is reading its pieces. -/
theorem readFrom?_quoteAll (t : List Char) (p : Placeholders) {s : ReaderState}
    (hs : s.IsBetween) : readFrom? s (Piece.quoteAll (Piece.cut t) p).1
      = Piece.readAll? (Piece.cut t) p s :=
  readFrom?_quoteAll_of_stands t p hs (List.forall₂_same.2 fun piece _ => .same piece)

/-- The value of a text that is plain but for its chains. -/
theorem read_quoteChains (t : List Char) (p : Placeholders) :
    (Json.read (quoteChains t p).1).toOption = Piece.readAll? (Piece.cut t) p .initial := by
  rw [toOption_read, quoteChains_eq, readFrom?_quoteAll t p isBetween_initial]

end JsonTemplate
