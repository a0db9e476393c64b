import JsonTemplate.Bytewise.PlainJson
import JsonTemplate.Proofs.Cuts
import JsonTemplate.Proofs.Parts

/-!
# Scanning by offsets

From a place on, the scan passes over just what is taken off the head of the text there: blanks, a
literal, an operand, a chain. So it comes to a place again, and its cuts are at places
(`scanFrom_eq`).
-/

namespace JsonTemplate.Bytewise

open Text

variable {input t : List Char} {c : Char} {pos : Nat}

namespace At

theorem peek (h : At input pos t) : peek input pos = pure t.head? := by
  rw [Bytewise.peek, h.remaining, pure_bind]

theorem tokenLength? (h : At input pos t) : tokenLength? input pos = pure (Token.length? t) := by
  rw [Bytewise.tokenLength?, h.remaining, pure_bind]

theorem eat (h : At input pos t) (c : Char) :
    eat input c pos = pure (if t.head? = some c then some (pos + c.utf8Size) else none) := by
  rw [Bytewise.eat, h.peek, pure_bind]

/-- Where one comes to over the characters of a class. -/
theorem dropWhile (h : At input pos t) (f : Char → Bool) :
    At input (pos + utf8Length (t.takeWhile f)) (t.dropWhile f) :=
  append (by rwa [List.takeWhile_append_dropWhile])

end At

/-! ## Blanks and operands -/

theorem skipBlanks_eq {n : Nat} (h : At input pos t) (hn : t.length < n) :
    skipBlanks input n pos = pure (pos + utf8Length (t.takeWhile isJsonBlank)) := by
  induction n generalizing pos t with
  | zero => cases hn
  | succ n ih =>
    rw [skipBlanks, h.peek, pure_bind]
    cases t with
    | nil => rfl
    | cons c t =>
      dsimp only [List.head?_cons]
      by_cases hc : isJsonBlank c = true
      · have hsize := utf8Size_of_isAsciiBlank (isAsciiBlank_of_isJsonBlank hc)
        have hnext : At input (pos + 1) t := hsize ▸ h.cons
        rw [if_pos hc, ih hnext (Nat.lt_of_succ_lt_succ hn), List.takeWhile_cons_of_pos hc,
          utf8Length, hsize, Nat.add_assoc]
      · rw [if_neg hc, List.takeWhile_cons_of_neg hc]
        rfl

theorem add_utf8Length_cons (pos : Nat) (c : Char) (t : List Char) :
    pos + utf8Length (c :: t) = pos + c.utf8Size + utf8Length t := by
  rw [utf8Length, Nat.add_assoc]

/-- The scan of a literal's rest ends where the literal does. -/
theorem skipQuoted_eq {n : Nat} (escaped : Bool) (h : At input pos t) (hn : t.length < n) :
    skipQuoted input n escaped pos
      = pure (pos + utf8Length (Operand.splitQuoted escaped t).1) := by
  induction n generalizing escaped pos t with
  | zero => cases hn
  | succ n ih =>
    rw [skipQuoted, h.peek, pure_bind]
    cases t with
    | nil => cases escaped <;> rfl
    | cons c t =>
      have hstep (escaped' : Bool) : skipQuoted input n escaped' (pos + c.utf8Size)
          = pure (pos + utf8Length (c :: (Operand.splitQuoted escaped' t).1)) := by
        rw [ih escaped' h.cons (Nat.lt_of_succ_lt_succ hn), add_utf8Length_cons]
      dsimp only [List.head?_cons]
      cases escaped with
      | true =>
        rw [if_pos rfl, hstep]
        rfl
      | false =>
        rw [if_neg Bool.false_ne_true, Operand.splitQuoted]
        by_cases hslash : c = '\\'
        · have hquote : c ≠ '"' := by
            rw [hslash]
            decide
          rw [if_pos hslash, if_neg hquote, hstep, hslash]
          rfl
        · rw [if_neg hslash]
          split
          · rfl
          · rw [hstep, beq_eq_false_iff_ne.2 hslash]

theorem split?_sign (t : List Char) : Operand.split? ('@' :: t)
    = (Token.split? ('@' :: t)).map fun r => (.token r.1.text, r.2) :=
  rfl

theorem scanOperand_eq (h : At input pos t) : scanOperand input pos
    = pure ((Operand.split? t).map fun (o, _) => (o.isToken, pos + utf8Length o.text)) := by
  rw [scanOperand, h.peek, pure_bind]
  cases t with
  | nil => rfl
  | cons c t =>
    by_cases hquote : c = '"'
    · subst hquote
      have hrest : At input (pos + 1) t := h.cons
      dsimp only [List.head?_cons]
      rw [skipQuoted_eq false hrest hrest.length_lt_limit, pure_bind, Operand.split?]
      simp only [Option.map_some, Operand.isToken, Operand.text, add_utf8Length_cons]
      rfl
    · by_cases hsign : c = '@'
      · subst hsign
        dsimp only [List.head?_cons]
        rw [h.tokenLength?, pure_bind, Token.length?, split?_sign, Option.map_map, Option.map_map]
        rfl
      · have hnone : Operand.split? (c :: t) = none := by
          simp [Operand.split?, Token.split?, hquote, hsign]
        rw [hnone]
        simp [hquote, hsign]

/-! ## Chains -/

/-- The extent with the operands of a chain added. -/
def Extent.join (e : Extent) (chain : Chain) : Extent where
  stop := e.stop + utf8Length chain.text
  operands := e.operands + chain.operands.length
  tokens := e.tokens + chain.operands.countP Operand.isToken

/-- The extent of a chain with one operand more. -/
theorem Extent.join_cons (e : Extent) (s : List Char) (o : Operand) (chain : Chain) :
    (e.add o.isToken (e.stop + utf8Length s)).join chain
      = e.join ⟨s ++ chain.text, o :: chain.operands⟩ := by
  simp only [join, add, utf8Length_append, List.length_cons, List.countP_cons, Extent.mk.injEq]
  refine ⟨by omega, by omega, ?_⟩
  split <;> omega

theorem splitJoin?_of_sign {u : List Char} (h : Text.skipBlanks t = '+' :: u) :
    splitJoin? t = (Operand.split? (Text.skipBlanks u)).map fun (o, rest) =>
      (t.takeWhile isJsonBlank ++ '+' :: u.takeWhile isJsonBlank, o, rest) := by
  unfold splitJoin?
  split
  · rename_i v hv
    rw [h] at hv
    cases hv
    rfl
  · rename_i hne
    exact absurd h (hne u)

/-- Either a sign and an operand are passed over, or the chain is at its end. -/
theorem scanJoined_step {e : Extent} (h : At input e.stop t) (n : Nat) :
    scanJoined input (n + 1) e = match splitJoin? t with
    | none => pure e
    | some (join, o, _) =>
      scanJoined input n (e.add o.isToken (e.stop + utf8Length (join ++ o.text))) := by
  have hblanks : At input (e.stop + utf8Length (t.takeWhile isJsonBlank)) (Text.skipBlanks t) :=
    h.dropWhile isJsonBlank
  rw [scanJoined, skipBlanks_eq h h.length_lt_limit, pure_bind, hblanks.eat, pure_bind]
  by_cases hsign : (Text.skipBlanks t).head? = some '+'
  · obtain ⟨u, hu⟩ := List.head?_eq_some_iff.1 hsign
    rw [hu] at hblanks
    have hnext := hblanks.cons
    rw [if_pos hsign, splitJoin?_of_sign hu]
    dsimp only
    rw [skipBlanks_eq hnext hnext.length_lt_limit, pure_bind,
      scanOperand_eq (hnext.dropWhile isJsonBlank), pure_bind, Text.skipBlanks]
    cases Operand.split? (u.dropWhile isJsonBlank) with
    | none => rfl
    | some r =>
      simp only [Option.map_some, utf8Length_append, add_utf8Length_cons, Nat.add_assoc]
  · rw [if_neg hsign, splitJoin?_eq_none hsign]

/-- All that is joined on is passed over, and counted. -/
theorem scanJoined_eq {n : Nat} (e : Extent) (h : At input e.stop t) (hn : t.length < n) :
    scanJoined input n e = pure (e.join (Chain.splitJoined t).1) := by
  obtain ⟨n, rfl⟩ := Nat.exists_eq_add_one.2 (Nat.zero_lt_of_lt hn)
  fun_induction Chain.splitJoined t generalizing e n with
  | case1 t hnone =>
    rw [scanJoined_step h, hnone]
    rfl
  | case2 t join o rest hsome chain rest' heq ih =>
    have hrest : At input (e.stop + utf8Length (join ++ o.text)) rest :=
      At.append (by rwa [splitJoin?_append hsome])
    have hlength : rest.length < n :=
      Nat.lt_of_lt_of_le (length_lt_of_splitJoin? hsome) (Nat.le_of_lt_succ hn)
    obtain ⟨n, rfl⟩ := Nat.exists_eq_add_one.2 (Nat.zero_lt_of_lt hlength)
    rw [heq] at ih
    rw [scanJoined_step h, hsome]
    dsimp only
    rw [ih (e.add o.isToken _) hrest n hlength, Extent.join_cons]

/-! ## Templates -/

theorem Extent.join_start (pos : Nat) (chain : Chain) : (start pos).join chain =
    ⟨pos + utf8Length chain.text, chain.operands.length,
      chain.operands.countP Operand.isToken⟩ := by
  simp [join, start]

/-- What a chain becomes is told by the number of its operands and tokens. -/
theorem toPlain_eq (chain : Chain) (p : Placeholders) : chain.toPlain p =
    if 1 < chain.operands.length ∧ 0 < chain.operands.countP Operand.isToken then
      ('"' :: (p.recordExpression chain.text).1.toList ++ ['"'], (p.recordExpression chain.text).2)
    else if 0 < chain.operands.countP Operand.isToken then (Json.quoted chain.text, p)
    else (chain.text, p) := by
  have htoken : chain.operands.any Operand.isToken = true
      ↔ 0 < chain.operands.countP Operand.isToken := by
    rw [List.countP_pos_iff, List.any_eq_true]
  rw [Chain.toPlain]
  simp only [htoken]
  by_cases hpos : 0 < chain.operands.countP Operand.isToken
  · by_cases hmany : 1 < chain.operands.length <;> simp [hpos, hmany]
  · simp [hpos]

theorem scanChain_eq (h : At input pos t) (out : List Char) (p : Placeholders) :
    scanChain input pos out p = pure (match Chain.split? t with
      | none => (pos, out, p)
      | some (chain, _) =>
        (pos + utf8Length chain.text, out ++ (chain.toPlain p).1, (chain.toPlain p).2)) := by
  rw [scanChain, scanOperand_eq h, pure_bind]
  cases hsplit : Chain.split? t with
  | none =>
    have ho : Operand.split? t = none := Option.map_eq_none_iff.1 hsplit
    rw [ho]
    rfl
  | some r =>
    obtain ⟨chain, rest⟩ := r
    obtain ⟨o, rest', ho, -, hchain⟩ := Chain.split?_eq_some hsplit
    have hrest : At input (pos + utf8Length o.text) rest' :=
      At.append (by rwa [Operand.split?_append ho])
    have hextent : ((Extent.start pos).add o.isToken (pos + utf8Length o.text)).join
        (Chain.splitJoined rest').1 = ⟨pos + utf8Length chain.text, chain.operands.length,
          chain.operands.countP Operand.isToken⟩ := by
      rw [hchain, ← Extent.join_start]
      exact Extent.join_cons (Extent.start pos) o.text o _
    have hslice : slice input pos (pos + utf8Length chain.text) = pure chain.text :=
      At.slice (by rwa [Chain.split?_append hsplit])
    rw [ho, Option.map_some]
    dsimp only
    rw [scanJoined_eq ((Extent.start pos).add o.isToken _) hrest hrest.length_lt_limit, pure_bind,
      hextent, hslice, pure_bind, toPlain_eq chain p]
    dsimp only
    split
    · rfl
    · split
      · rfl
      · rfl

theorem startsChain_eq (h : At input pos (c :: t)) :
    startsChain input c pos = pure (Chain.split? (c :: t)).isSome := by
  rw [startsChain]
  by_cases hquote : c = '"'
  · rw [if_pos hquote, hquote]
    rfl
  · rw [if_neg hquote]
    by_cases hsign : c = '@'
    · subst hsign
      rw [if_pos rfl, h.tokenLength?, pure_bind, Token.length?, Chain.split?, split?_sign,
        Option.isSome_map, Option.isSome_map, Option.isSome_map]
    · rw [if_neg hsign, Chain.split?_cons_eq_none hquote hsign]
      rfl

/-- From a place on the chains are replaced. -/
theorem scanFrom_eq {n : Nat} (h : At input pos t) (hn : t.length < n) (out : List Char)
    (p : Placeholders) : scanFrom input n pos out p
      = pure (out ++ (JsonTemplate.quoteChains t p).1, (JsonTemplate.quoteChains t p).2) := by
  obtain ⟨n, rfl⟩ := Nat.exists_eq_add_one.2 (Nat.zero_lt_of_lt hn)
  fun_induction JsonTemplate.quoteChains t p generalizing pos out n with
  | case1 p =>
    rw [scanFrom, h.peek, pure_bind, List.append_nil]
    rfl
  | case2 p c t hnone rest p' heq ih =>
    obtain ⟨n, rfl⟩ := Nat.exists_eq_add_one.2 (Nat.zero_lt_of_lt (Nat.lt_of_succ_lt_succ hn))
    rw [scanFrom, h.peek, pure_bind]
    dsimp only [List.head?_cons]
    rw [startsChain_eq h, pure_bind, hnone, ih h.cons _ n (Nat.lt_of_succ_lt_succ hn), heq]
    simp
  | case3 p c t chain rest hsome replaced p' heq rest' p'' heq' ih =>
    have hrest : At input (pos + utf8Length chain.text) rest :=
      At.append (by rwa [Chain.split?_append hsome])
    have hlength : rest.length < n :=
      Nat.lt_of_lt_of_le (Chain.length_lt_of_split? hsome) (Nat.le_of_lt_succ hn)
    obtain ⟨n, rfl⟩ := Nat.exists_eq_add_one.2 (Nat.zero_lt_of_lt hlength)
    rw [scanFrom, h.peek, pure_bind]
    dsimp only [List.head?_cons]
    rw [startsChain_eq h, pure_bind, hsome, Option.isSome_some, if_pos rfl, scanChain_eq h, hsome,
      pure_bind]
    dsimp only
    rw [heq, ih hrest _ n hlength, heq', List.append_assoc]

theorem quoteChains_eq (t : List Char) (p : Placeholders) :
    quoteChains t p = pure (JsonTemplate.quoteChains t p) :=
  scanFrom_eq (At.start t) (At.start t).length_lt_limit [] p

end JsonTemplate.Bytewise
