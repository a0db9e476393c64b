import JsonTemplate.Proofs.Contents
import JsonTemplate.Proofs.Segments
import JsonTemplate.Proofs.Tree

/-!
# The chains of a tree

Literals, directives and concatenations are taken off a text whole, whatever follows them that can
follow a value (`Ends`), and each is read as one string: what the literal denotes, the text of the
directive, or a placeholder.
-/

namespace JsonTemplate

open Text Json Json.ReaderState

/-! ## What follows a value -/

/-- Blanks aside, the text is at its end or goes on with a comma or a closing bracket. -/
def Ends (rest : List Char) : Prop :=
  ∀ c ∈ (skipBlanks rest).head?, c ∈ [',', ']', '\x7d']

theorem isJsonBlank_iff {c : Char} :
    isJsonBlank c = true ↔ c = ' ' ∨ c = '\t' ∨ c = '\n' ∨ c = '\r' := by
  simp [isJsonBlank, or_assoc]

theorem skipBlanks_append {b : List Char} (hb : ∀ c ∈ b, isJsonBlank c = true) (t : List Char) :
    skipBlanks (b ++ t) = skipBlanks t :=
  List.dropWhile_append_of_pos hb

theorem skipBlanks_cons {c : Char} (hc : isJsonBlank c = false) (t : List Char) :
    skipBlanks (c :: t) = c :: t :=
  List.dropWhile_cons_of_neg (by simp [hc])

theorem ends_nil : Ends [] := by
  intro c hc
  cases hc

theorem ends_cons {c : Char} (hc : c ∈ [',', ']', '\x7d']) (t : List Char) : Ends (c :: t) := by
  have hblank : isJsonBlank c = false := by
    simp only [List.mem_cons, List.not_mem_nil, or_false] at hc
    rcases hc with rfl | rfl | rfl <;> rfl
  intro d hd
  rw [skipBlanks_cons hblank] at hd
  cases hd
  exact hc

theorem Ends.blanks {rest : List Char} (h : Ends rest) (b : Blanks) : Ends (b ++ rest) := by
  rw [Ends, skipBlanks_append b.2]
  exact h

/-- After blanks, or none, comes a character that continues no token. -/
theorem stops_blanks {b : List Char} (hb : ∀ c ∈ b, isJsonBlank c = true) {t : List Char}
    (ht : Token.Stops t) : Token.Stops (b ++ t) := by
  cases b with
  | nil => exact ht
  | cons c b =>
    intro d hd
    cases hd
    rcases isJsonBlank_iff.1 (hb c List.mem_cons_self) with rfl | rfl | rfl | rfl <;> decide

theorem Ends.stops {rest : List Char} (h : Ends rest) : Token.Stops rest := by
  have hsplit := List.takeWhile_append_dropWhile (p := isJsonBlank) (l := rest)
  rw [← hsplit]
  refine stops_blanks (fun c hc => List.all_eq_true.1 List.all_takeWhile c hc) fun c hc => ?_
  have hc := h c hc
  simp only [List.mem_cons, List.not_mem_nil, or_false] at hc
  rcases hc with rfl | rfl | rfl <;> decide

theorem splitJoin?_eq_none {t : List Char} (h : '+' ∉ (skipBlanks t).head?) :
    splitJoin? t = none := by
  unfold splitJoin?
  split
  · rename_i u hu
    exact absurd (by rw [hu]; rfl) h
  · rfl

theorem Ends.splitJoin?_eq_none {rest : List Char} (h : Ends rest) : splitJoin? rest = none :=
  JsonTemplate.splitJoin?_eq_none fun hp => absurd (h '+' hp) (by decide)

/-! ## Literals -/

/-- From within a literal on, the text closes it, and not before its last character. -/
def Operand.Closes (escaped : Bool) (t : List Char) : Prop :=
  ∀ u, Operand.splitQuoted escaped (t ++ u) = (t, u)

/-- A text that closes a literal is its closing quote, or closes it after one character more. -/
theorem Operand.Closes.of_cons {escaped : Bool} {c : Char} {t : List Char}
    (h : Operand.Closes escaped (c :: t)) :
    escaped = false ∧ c = '"' ∧ t = [] ∨
      (escaped = true ∨ c ≠ '"') ∧ Operand.Closes (!escaped && c == '\\') t := by
  cases escaped with
  | true =>
    refine .inr ⟨.inl rfl, fun u => ?_⟩
    have := h u
    simp only [List.cons_append, splitQuoted, Prod.mk.injEq, List.cons.injEq, true_and] at this
    exact Prod.ext this.1 this.2
  | false =>
    by_cases hc : c = '"'
    · have := h []
      simp only [hc, List.append_nil, splitQuoted, if_true, Prod.mk.injEq] at this
      exact .inl ⟨rfl, hc, this.2⟩
    · refine .inr ⟨.inr hc, fun u => ?_⟩
      have := h u
      simp only [List.cons_append, splitQuoted, if_neg hc, Prod.mk.injEq, List.cons.injEq,
        true_and] at this
      exact Prod.ext this.1 this.2

theorem Operand.not_closes_nil (escaped : Bool) : ¬ Operand.Closes escaped [] := by
  intro h
  have := h ['a']
  cases escaped <;> cases this

/-- What closes a literal ends with a quote. -/
theorem Operand.Closes.exists_eq_concat {t : List Char} : ∀ {escaped : Bool},
    Operand.Closes escaped t → ∃ inner, t = inner ++ ['"'] := by
  induction t with
  | nil => exact fun h => absurd h (Operand.not_closes_nil _)
  | cons c t ih =>
    intro escaped h
    rcases h.of_cons with ⟨-, rfl, rfl⟩ | ⟨-, h⟩
    · exact ⟨[], rfl⟩
    · obtain ⟨inner, rfl⟩ := ih h
      exact ⟨c :: inner, rfl⟩

theorem Json.closes_of_spelled? : ∀ {t read x : List Char} {part : StringPart},
    spelled? read part t = some x → Operand.Closes (isEscaping part) t
  | [], _, _, _, h => by cases h
  | c :: t, read, x, part, h => by
    intro u
    obtain ⟨rfl, hplain, rfl, -⟩ | ⟨read', part', hend, hs, h⟩ := spelled?_cons_eq_some h
    · rw [isEscaping_eq_false_of_isPlain hplain]
      rfl
    · rw [List.cons_append, splitQuoted_cons_of_stringStep hs hend, closes_of_spelled? h u]

namespace Literal

theorem closes (l : Literal) : Operand.Closes false (l.body ++ ['"']) := by
  obtain ⟨x, hx, -, hblank⟩ := exists_spelled?_of_read l.isRead
  have happ := Operand.splitQuoted_append false (l.body ++ ['"'])
  have hnil : (Operand.splitQuoted false (l.body ++ ['"'])).2 = [] := by
    refine Decidable.byContradiction fun hne => ?_
    have hlast := congrArg List.getLast? happ
    rw [List.getLast?_append, List.getLast?_concat, List.getLast?_eq_some_getLast hne,
      Option.some_or, Option.some.injEq] at hlast
    have := hblank _ (List.getLast_mem hne)
    rw [hlast] at this
    cases this
  rw [hnil, List.append_nil] at happ
  rw [happ] at hx
  exact closes_of_spelled? hx

theorem operand_split? (l : Literal) (rest : List Char) :
    Operand.split? (l.text ++ rest) = some (.literal l.text, rest) := by
  rw [text, List.cons_append, Operand.split?, l.closes rest]

theorem literalText?_text (l : Literal) : literalText? l.text = some l.value := by
  rw [literalText?, text, l.isRead]
  rfl

end Literal

/-! ## Operands -/

/-- How an operand is taken off a text, if it is terminated. -/
inductive Operand.Whole : Operand → Prop
  | literal {t : List Char} (h : Closes false t) : Whole (.literal ('"' :: t))
  | token {k : Token} (h : k.WellFormed) : Whole (.token k.text)

namespace Operand.Whole

variable {o : Operand}

theorem exists_eq_cons (h : o.Whole) : ∃ c u, o.text = c :: u ∧ (c = '"' ∨ c = '@') := by
  cases h with
  | literal h => exact ⟨_, _, rfl, .inl rfl⟩
  | token h => exact ⟨_, _, rfl, .inr rfl⟩

theorem isBlank_head? (h : o.Whole) : ∀ c ∈ o.text.head?, isBlank c = false := by
  intro c hc
  obtain ⟨d, u, hu, hd⟩ := h.exists_eq_cons
  rw [hu] at hc
  cases hc
  rcases hd with rfl | rfl <;> rfl

theorem isBlank_getLast? (h : o.Whole) : ∀ c ∈ o.text.getLast?, isBlank c = false := by
  cases h with
  | literal h =>
    obtain ⟨inner, rfl⟩ := h.exists_eq_concat
    intro c hc
    rw [text, ← List.cons_append, List.getLast?_concat] at hc
    cases hc
    rfl
  | token h => exact Token.isBlank_getLast?_text h

theorem split? (h : o.Whole) {rest : List Char} (hrest : Token.Stops rest) :
    Operand.split? (o.text ++ rest) = some (o, rest) := by
  cases h with
  | literal h => rw [text, List.cons_append, Operand.split?, h rest]
  | token h =>
    have hsplit := Token.split?_text_append h hrest
    unfold Operand.split?
    split
    · rename_i heq
      cases heq
    · rw [text, hsplit]
      rfl

/-- The blanks around an operand are trimmed. -/
theorem trim_blanks (h : o.Whole) {before after : List Char}
    (hb : ∀ c ∈ before, isJsonBlank c = true) (ha : ∀ c ∈ after, isJsonBlank c = true) :
    trim (before ++ (o.text ++ after)) = o.text := by
  obtain ⟨c, u, hu, -⟩ := h.exists_eq_cons
  exact trim_append (fun c hc => isBlank_of_isJsonBlank (hb c hc))
    (fun c hc => isBlank_of_isJsonBlank (ha c hc)) (by simp [hu]) h.isBlank_head?
    h.isBlank_getLast?

end Operand.Whole

/-- Operands in a row, each after a sign. -/
inductive Operand.Joined : List Operand → List Char → Prop
  | nil : Joined [] []
  | cons {o : Operand} {os : List Operand} {t : List Char} (before after : Blanks)
      (h : Joined os t) : Joined (o :: os) (before ++ '+' :: (after ++ (o.text ++ t)))

theorem Operand.Joined.subset {os : List Operand} {t : List Char} (ht : Joined os t) {o : Operand}
    (ho : o ∈ os) : o.text ⊆ t := by
  induction ht with
  | nil => cases ho
  | cons before after _ ih =>
    intro c hc
    rcases List.mem_cons.1 ho with rfl | ho
    · simp [hc]
    · simp [ih ho hc]

theorem Operand.Joined.isBlank_getLast? {os : List Operand} {t : List Char} (ht : Joined os t)
    (hos : ∀ o ∈ os, o.Whole) : ∀ {s : List Char}, (∀ c ∈ s.getLast?, isBlank c = false) →
      ∀ c ∈ (s ++ t).getLast?, isBlank c = false := by
  induction ht with
  | nil =>
    intro s hs
    rwa [List.append_nil]
  | @cons o os t before after ht ih =>
    intro s _
    have ho := hos o List.mem_cons_self
    obtain ⟨d, u, hu, -⟩ := ho.exists_eq_cons
    have hlast : (s ++ before ++ ('+' :: after) ++ o.text).getLast? = o.text.getLast? := by
      simp [hu, List.getLast?_append, List.getLast?_cons]
    have hrest := ih (fun p hp => hos p (List.mem_cons_of_mem o hp))
      (s := s ++ before ++ ('+' :: after) ++ o.text) (by rw [hlast]; exact ho.isBlank_getLast?)
    simpa using hrest

/-! ## Parts -/

namespace Part

def operand : Part → Operand
  | .quote q => .literal q.text
  | .mention m => .token m.text

theorem text_operand (part : Part) : part.operand.text = part.text := by
  cases part <;> rfl

theorem isToken_operand (part : Part) : part.operand.isToken = part.isMention := by
  cases part <;> rfl

theorem whole_operand (part : Part) : part.operand.Whole := by
  cases part with
  | quote q => exact .literal q.closes
  | mention m => exact .token m.wellFormed

theorem operand_split? (part : Part) {rest : List Char} (h : Token.Stops rest) :
    Operand.split? (part.text ++ rest) = some (part.operand, rest) := by
  rw [← part.text_operand]
  exact part.whole_operand.split? h

/-- A part begins with a quote or a sign. -/
theorem exists_text_eq_cons (part : Part) :
    ∃ c t, part.text = c :: t ∧ (c = '"' ∨ c = '@') := by
  rw [← part.text_operand]
  exact part.whole_operand.exists_eq_cons

end Part

theorem takeWhile_blanks (b : Blanks) {c : Char} (hc : isJsonBlank c = false) (t : List Char) :
    ((b : List Char) ++ c :: t).takeWhile isJsonBlank = b := by
  rw [List.takeWhile_append_of_pos b.2, List.takeWhile_cons_of_neg (by simp [hc]), List.append_nil]

/-- A sign with blanks around it joins the operand that follows. -/
theorem splitJoin?_of_operand (before after : Blanks) {t rest : List Char} {o : Operand}
    (h : Operand.split? t = some (o, rest)) :
    splitJoin? (before ++ '+' :: (after ++ t))
      = some (before ++ '+' :: (after : List Char), o, rest) := by
  obtain ⟨c, u, hc, hblank⟩ : ∃ c u, t = c :: u ∧ isJsonBlank c = false := by
    obtain ⟨c, u, hu, hc⟩ := Operand.text_head h
    refine ⟨c, u ++ rest, by rw [← Operand.split?_append h, hu]; rfl, ?_⟩
    rcases hc with rfl | rfl <;> rfl
  rw [splitJoin?, skipBlanks_append before.2, skipBlanks_cons rfl]
  simp only
  rw [skipBlanks_append after.2, takeWhile_blanks before rfl, hc, takeWhile_blanks after hblank,
    skipBlanks_cons hblank, ← hc, h]
  rfl

theorem Link.splitJoin?_text (l : Link) {rest : List Char} (h : Token.Stops rest) :
    splitJoin? (l.text ++ rest)
      = some (l.before ++ '+' :: (l.after : List Char), l.part.operand, rest) := by
  have htext : l.text ++ rest = l.before ++ '+' :: (l.after ++ (l.part.text ++ rest)) := by
    simp [Link.text]
  rw [htext, splitJoin?_of_operand l.before l.after (l.part.operand_split? h)]

theorem stops_links {rest : List Char} (h : Token.Stops rest) (links : List Link) :
    Token.Stops (links.flatMap Link.text ++ rest) := by
  cases links with
  | nil => exact h
  | cons l links =>
    rw [List.flatMap_cons, Link.text, List.append_assoc, List.append_assoc]
    refine stops_blanks l.before.2 fun c hc => ?_
    cases hc
    decide

theorem Chain.splitJoined_links {rest : List Char} (h : Ends rest) : ∀ links : List Link,
    splitJoined (links.flatMap Link.text ++ rest)
      = (⟨links.flatMap Link.text, links.map fun l => l.part.operand⟩, rest)
  | [] => splitJoined_of_none h.splitJoin?_eq_none
  | l :: links => by
    rw [List.flatMap_cons, List.append_assoc,
      splitJoined_of_some (l.splitJoin?_text (stops_links h.stops links)),
      splitJoined_links h links]
    simp [Link.text, Part.text_operand]

namespace Concatenation

def chain (c : Concatenation) : Chain :=
  ⟨c.text, c.parts.map Part.operand⟩

theorem split?_text (c : Concatenation) {rest : List Char} (h : Ends rest) :
    Chain.split? (c.text ++ rest) = some (c.chain, rest) := by
  rw [text, List.append_assoc, Chain.split?, c.first.operand_split? (stops_links h.stops c.links)]
  simp [Chain.splitJoined_links h, chain, text, parts, Part.text_operand]

theorem one_lt_operands (c : Concatenation) : 1 < c.chain.operands.length := by
  have := List.length_pos_iff.2 c.joined
  simp only [chain, parts, List.map_cons, List.length_cons, List.length_map]
  omega

theorem any_isToken (c : Concatenation) : c.chain.operands.any Operand.isToken = true := by
  have := c.mentions
  simpa [chain, parts, Part.isToken_operand] using this

end Concatenation

theorem Link.joined : ∀ links : List Link,
    Operand.Joined (links.map fun l => l.part.operand) (links.flatMap Link.text)
  | [] => .nil
  | l :: links => by
    rw [List.flatMap_cons, Link.text, ← l.part.text_operand]
    simpa using Operand.Joined.cons l.before l.after (joined links)

theorem Link.whole_operands (links : List Link) :
    ∀ o ∈ links.map fun l => l.part.operand, o.Whole := by
  intro o ho
  obtain ⟨l, -, rfl⟩ := List.mem_map.1 ho
  exact l.part.whole_operand

theorem Concatenation.trim_text (c : Concatenation) : trim c.text = c.text := by
  have hlast := c.first.whole_operand.isBlank_getLast?
  rw [c.first.text_operand] at hlast
  refine trim_eq_self (fun d hd => ?_)
    ((Link.joined c.links).isBlank_getLast? (Link.whole_operands c.links) hlast)
  obtain ⟨e, t, ht, he⟩ := c.first.exists_text_eq_cons
  rw [text, ht] at hd
  cases hd
  rcases he with rfl | rfl <;> rfl

/-- An operand that stands alone is a chain of its own. -/
theorem Operand.Whole.chain_split? {o : Operand} (ho : o.Whole) {rest : List Char} (h : Ends rest) :
    Chain.split? (o.text ++ rest) = some (⟨o.text, [o]⟩, rest) := by
  rw [Chain.split?, ho.split? h.stops]
  simp [Chain.splitJoined_of_none h.splitJoin?_eq_none]

theorem Literal.chain_split? (l : Literal) {rest : List Char} (h : splitJoin? rest = none) :
    Chain.split? (l.text ++ rest) = some (⟨l.text, [.literal l.text]⟩, rest) := by
  rw [Chain.split?, l.operand_split?]
  simp [Chain.splitJoined_of_none h, Operand.text]

end JsonTemplate
