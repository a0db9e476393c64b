import JsonTemplate.Proofs.Renaming
import JsonTemplate.Proofs.Slots

/-!
# Numberings

A text is read with two tables, which have given out different numbers before. If its blocks stand
on their own, and neither they nor its expressions are names of fields (`Bit.HasSlots`), the two
readings differ in the numbers of the blocks only (`Bit.HasSlots.sameReading`): the expressions are
put back, and the place of an error does not matter.
-/

namespace JsonTemplate

open Text Json Json.ReaderState

/-! ## Related strings -/

namespace Placeholder

/-- The placeholder of an expression or of a block, where the expressions are numbered from `e` on
and the blocks from `m` on. -/
def numbered (e m : Nat) : Nat ⊕ Nat → String
  | .inl i => ofExpression (e + i)
  | .inr n => ofBlock (blockName (m + n))

def IsPlaceholder (s : String) : Prop :=
  (∃ n, s = ofExpression n) ∨ ∃ n, s = ofBlock (blockName n)

theorem numbered_injective (e m : Nat) : Function.Injective (numbered e m)
  | .inl i, .inl j, h => by rw [Nat.add_left_cancel (ofExpression_injective h)]
  | .inl i, .inr n, h => absurd h.symm (ofBlock_ne_ofExpression _ _)
  | .inr n, .inl i, h => absurd h (ofBlock_ne_ofExpression _ _)
  | .inr n, .inr k, h => by rw [Nat.add_left_cancel (ofBlock_blockName_injective h)]

theorem isPlaceholder_numbered (e m : Nat) : ∀ i, IsPlaceholder (numbered e m i)
  | .inl i => .inl ⟨e + i, rfl⟩
  | .inr n => .inr ⟨m + n, rfl⟩

/-- The same string, which is no placeholder, or one placeholder with two numberings. -/
def Shifted (e m e' m' : Nat) (C : Nat ⊕ Nat → Prop) (x y : String) : Prop :=
  (x = y ∧ ¬ IsPlaceholder x) ∨ ∃ i, C i ∧ x = numbered e m i ∧ y = numbered e' m' i

theorem oneToOne_shifted (e m e' m' : Nat) (C : Nat ⊕ Nat → Prop) :
    OneToOne (Shifted e m e' m' C) := by
  rintro x x' y y' (⟨rfl, hx⟩ | ⟨i, -, rfl, rfl⟩) (⟨rfl, hy⟩ | ⟨j, -, rfl, rfl⟩)
  · rfl
  · constructor <;> rintro rfl <;> exact absurd (isPlaceholder_numbered _ _ _) hx
  · constructor <;> rintro rfl <;> exact absurd (isPlaceholder_numbered _ _ _) hy
  · rw [(numbered_injective e m).eq_iff, (numbered_injective e' m').eq_iff]

/-- The same string, which names no block, or the names of one of the first `k` blocks with two
numberings. -/
def SameName (m m' k : Nat) (x y : String) : Prop :=
  (x = y ∧ ∀ n, x ≠ ofBlock (blockName n))
    ∨ ∃ n < k, x = ofBlock (blockName (m + n)) ∧ y = ofBlock (blockName (m' + n))

end Placeholder

open Placeholder

namespace Json

mutual

theorem Matching.replaceStrings {R S : String → String → Prop} {f g : String → String}
    (hf : ∀ x y, R x y → S (f x) (g y)) : ∀ {v v' : Json}, Matching R v v' →
      (∀ x ∈ v.keys, ∀ y, R x y → S x y) → Matching S (v.replaceStrings f) (v'.replaceStrings g)
  | .null, .null, _, _ => trivial
  | .bool _, .bool _, h, _ => h
  | .number _, .number _, h, _ => h
  | .string x, .string y, h, _ => hf x y h
  | .array _, .array _, h, hkeys => MatchingItems.replaceItems hf h hkeys
  | .object _, .object _, h, hkeys => MatchingFields.replaceFields hf h hkeys

theorem MatchingItems.replaceItems {R S : String → String → Prop} {f g : String → String}
    (hf : ∀ x y, R x y → S (f x) (g y)) : ∀ {vs vs' : List Json}, MatchingItems R vs vs' →
      (∀ x ∈ keysOfItems vs, ∀ y, R x y → S x y) →
        MatchingItems S (replaceItems f vs) (replaceItems g vs')
  | [], [], _, _ => trivial
  | v :: vs, v' :: vs', h, hkeys => by
    rw [keysOfItems_cons, List.forall_mem_append] at hkeys
    exact ⟨Matching.replaceStrings hf h.1 hkeys.1, MatchingItems.replaceItems hf h.2 hkeys.2⟩

theorem MatchingFields.replaceFields {R S : String → String → Prop} {f g : String → String}
    (hf : ∀ x y, R x y → S (f x) (g y)) : ∀ {fs fs' : Fields}, MatchingFields R fs fs' →
      (∀ x ∈ keysOfFields fs, ∀ y, R x y → S x y) →
        MatchingFields S (replaceFields f fs) (replaceFields g fs')
  | [], [], _, _ => trivial
  | (key, v) :: fs, (key', v') :: fs', h, hkeys => by
    rw [keysOfFields_cons, List.forall_mem_cons, List.forall_mem_append] at hkeys
    exact ⟨hkeys.1 key' h.1, Matching.replaceStrings hf h.2.1 hkeys.2.1,
      MatchingFields.replaceFields hf h.2.2 hkeys.2.2⟩

end

end Json

/-! ## Placed slots -/

theorem literalText?_block (n : Nat) :
    literalText? (Bit.text (.block n)) = some (ofBlock (blockName n)) := by
  have hquoted := quoted_of_isNameChar (isWord_ofBlock n).2.2
  rw [Bit.text, ← hquoted, literalText?, read_quoted]
  simp [Except.toOption, toString?]

namespace Slot

/-- Whether the next character that is not blank is a colon. -/
def isColonNext : List Slot → Bool
  | .other c :: rest => c == ':' || isJsonBlank c && isColonNext rest
  | _ => false

/-- No expression and no block is the name of a field, and no literal denotes a placeholder. -/
def Placed : List Slot → Prop
  | [] => True
  | .other _ :: rest => Placed rest
  | .chained chain :: rest =>
    (1 < chain.operands.length → chain.operands.any Operand.isToken → isColonNext rest = false)
      ∧ (¬ 1 < chain.operands.length → ∀ p x, chain.content? p = some x → ¬ IsPlaceholder x)
      ∧ Placed rest
  | .block _ :: rest => isColonNext rest = false ∧ Placed rest

theorem Placed.tail {slot : Slot} {slots : List Slot} (h : Placed (slot :: slots)) :
    Placed slots := by
  cases slot with
  | other c => exact h
  | chained chain => exact h.2.2
  | block n => exact h.2

variable {m m' : Nat}

theorem isColonNext_map : ∀ slots : List Slot,
    Piece.isColonNext (slots.map (piece m)) = isColonNext slots
  | [] => rfl
  | .other c :: slots => by
    rw [List.map_cons, piece, Piece.isColonNext, isColonNext, isColonNext_map slots]
  | .chained _ :: _ => rfl
  | .block _ :: _ => rfl

theorem content?_block (n : Nat) (p : Placeholders) :
    (Chain.ofLiteral (Bit.text (.block n))).content? p = some (ofBlock (blockName n)) :=
  literalText?_block n

theorem toPlain_ofLiteral (t : List Char) (p : Placeholders) :
    (Chain.ofLiteral t).toPlain p = (t, p) :=
  rfl

theorem fresh {slots : List Slot} (h : Placed slots) : Piece.Fresh (slots.map (piece m)) := by
  induction slots with
  | nil =>
    intro chain hc
    cases hc
  | cons slot slots ih =>
    intro chain hc
    rcases List.mem_cons.1 hc with hc | hc
    · cases slot with
      | other c => cases hc
      | chained chain' =>
        cases hc
        exact fun hlen p x n hx hxn => h.2.1 hlen p x hx (.inl ⟨n, hxn⟩)
      | block n =>
        cases hc
        intro _ p x k hx
        rw [content?_block] at hx
        cases hx
        exact ofBlock_ne_ofExpression _ _
    · exact ih h.tail chain hc

/-- A name is no placeholder. -/
theorem not_isPlaceholder_of_mem_names {x : String} {slots : List Slot} (h : Placed slots)
    {p : Placeholders} (hx : x ∈ Piece.names (slots.map (piece m)) p) : ¬ IsPlaceholder x := by
  induction slots generalizing p with
  | nil => cases hx
  | cons slot slots ih =>
    cases slot with
    | other c => exact ih h hx
    | chained chain =>
      rw [List.map_cons, piece, Piece.names_chained, isColonNext_map] at hx
      rcases List.mem_append.1 hx with hx | hx
      · split at hx
        · rename_i hcolon
          rw [Option.mem_toList] at hx
          by_cases hlen : 1 < chain.operands.length
          · rw [Chain.content?_of_joined hlen] at hx
            split at hx
            · rename_i hany
              rw [h.1 hlen hany] at hcolon
              cases hcolon
            · cases hx
          · exact h.2.1 hlen p x hx
        · cases hx
      · exact ih h.2.2 hx
    | block n =>
      rw [List.map_cons, piece, Piece.names_chained, isColonNext_map, h.1] at hx
      exact ih h.2 hx

theorem kindred_quoteAll : ∀ (slots : List Slot) (p q : Placeholders),
    Kindred (Piece.quoteAll (slots.map (piece m)) p).1 (Piece.quoteAll (slots.map (piece m')) q).1
  | [], _, _ => .nil
  | .other c :: slots, p, q => (kindred_quoteAll slots p q).char c
  | .chained chain :: slots, p, q => (kindred_quoteAll slots _ _).toPlain chain p q
  | .block n :: slots, p, q => by
    have := Kindred.word (isWord_ofBlock (m + n)) (isWord_ofBlock (m' + n))
      (kindred_quoteAll slots p q)
    simpa [piece, Piece.quoteAll, Piece.toPlain, toPlain_ofLiteral, Bit.text] using this

/-! ## Readings -/

/-- A reading on its way: `i` expressions have been recorded since the start, and `last` is the
table that it comes to. -/
structure Reading (m e : Nat) (last : Placeholders) (slots : List Slot) (i : Nat)
    (p : Placeholders) : Prop where
  cut : ∃ t, Piece.cut t = slots.map (piece m)
  wellFormed : p.WellFormed
  next : p.nextExpression = e + i
  last : (Piece.quoteAll (slots.map (piece m)) p).2 = last

section Reading

variable {e e' k i : Nat} {last last' p q : Placeholders} {slots : List Slot} {chain : Chain}

theorem Reading.other {c : Char} (h : Reading m e last (.other c :: slots) i p) :
    c ≠ '"' ∧ Reading m e last slots i p := by
  obtain ⟨t, ht⟩ := h.cut
  obtain ⟨u, rfl, hnone, hu⟩ := Piece.eq_cons_of_cut ht
  exact ⟨Piece.other_ne_quote hnone, ⟨u, hu⟩, h.wellFormed, h.next, h.last⟩

theorem Reading.chained (h : Reading m e last (.chained chain :: slots) i p) :
    Reading m e last slots (i + chain.weight) (chain.toPlain p).2 := by
  obtain ⟨t, ht⟩ := h.cut
  obtain ⟨rest, hsplit, hrest⟩ := Piece.split?_of_cut ht
  refine ⟨⟨rest, hrest⟩, h.wellFormed.toPlain hsplit, ?_, h.last⟩
  rw [Chain.toPlain_nextExpression, h.next, Nat.add_assoc]

theorem Reading.block {n : Nat} (h : Reading m e last (.block n :: slots) i p) :
    Reading m e last slots i p := by
  obtain ⟨t, ht⟩ := h.cut
  obtain ⟨rest, -, hrest⟩ := Piece.split?_of_cut ht
  exact ⟨⟨rest, hrest⟩, h.wellFormed, h.next, h.last⟩

/-- What has been recorded for an expression is in the last table. -/
theorem Reading.expression? (h : Reading m e last (.chained chain :: slots) i p)
    (hlen : 1 < chain.operands.length) (hany : chain.operands.any Operand.isToken = true) :
    last.expression? (ofExpression (e + i)) = some (String.ofList (trim chain.text)) := by
  rw [← h.last, ← h.next, List.map_cons, piece, Piece.quoteAll, Piece.toPlain,
    Chain.toPlain_of_joined hlen hany]
  exact Piece.expression?_quoteAll (Placeholders.expression?_recordExpression h.wellFormed _)

/-- The placeholders that two readings may give: an expression stands for one text in both tables,
and the blocks are among the first `k`. -/
def Agreed (e e' k : Nat) (last last' : Placeholders) : Nat ⊕ Nat → Prop
  | .inl i => ∃ text, last.expression? (ofExpression (e + i)) = some text
      ∧ last'.expression? (ofExpression (e' + i)) = some text
  | .inr n => n < k

/-- A chain is read as one string with both tables, or as the placeholder of one expression. -/
theorem Reading.rel_content? (k : Nat) (h : Reading m e last (.chained chain :: slots) i p)
    (h' : Reading m' e' last' (.chained chain :: slots) i q)
    (hplaced : Placed (.chained chain :: slots)) :
    Option.Rel (Shifted e m e' m' (Agreed e e' k last last')) (chain.content? p)
      (chain.content? q) := by
  by_cases hlen : 1 < chain.operands.length
  · rw [Chain.content?_of_joined hlen, Chain.content?_of_joined hlen, h.next, h'.next]
    split
    · rename_i hany
      exact .some (.inr ⟨.inl i, ⟨_, h.expression? hlen hany, h'.expression? hlen hany⟩, rfl, rfl⟩)
    · exact .none
  · obtain ⟨t, ht⟩ := h.cut
    obtain ⟨rest, hsplit, -⟩ := Piece.split?_of_cut ht
    have hsame : chain.content? q = chain.content? p := by
      rcases Chain.split?_cases hsplit with ⟨u, -, -, rfl⟩ | ⟨k, -, rfl⟩ | hjoined
      · rfl
      · rfl
      · exact absurd hjoined hlen
    rw [hsame]
    cases hx : chain.content? p with
    | none => exact .none
    | some x => exact .some (.inl ⟨rfl, hplaced.2.1 hlen p x hx⟩)

/-- Slot by slot the readers do the same. -/
theorem matching_readAll? {s s' : ReaderState} (h : Reading m e last slots i p)
    (h' : Reading m' e' last' slots i q) (hplaced : Placed slots)
    (hk : ∀ n, .block n ∈ slots → n < k)
    (hs : MatchingState (Shifted e m e' m' (Agreed e e' k last last')) s s') :
    Option.Rel (Matching (Shifted e m e' m' (Agreed e e' k last last')))
      (Piece.readAll? (slots.map (piece m)) p s) (Piece.readAll? (slots.map (piece m')) q s') := by
  have hone := oneToOne_shifted e m e' m' (Agreed e e' k last last')
  induction slots generalizing i p q s s' with
  | nil => exact matching_close hs
  | cons slot slots ih =>
    have hk' : ∀ n, .block n ∈ slots → n < k := fun n hn => hk n (List.mem_cons_of_mem _ hn)
    cases slot with
    | other c =>
      refine Piece.rel_bind (matching_step hone hs h.other.1) fun s s' hs => ?_
      exact ih h.other.2 h'.other.2 hplaced hk' hs
    | chained chain =>
      refine Piece.rel_bind (h.rel_content? k h' hplaced) fun x x' hx => ?_
      refine Piece.rel_bind (matching_takeString? hone hs hx) fun s s' hs => ?_
      exact ih h.chained h'.chained hplaced.2.2 hk' hs
    | block n =>
      have hcontent : Option.Rel (Shifted e m e' m' (Agreed e e' k last last'))
          ((Chain.ofLiteral (Bit.text (.block (m + n)))).content? p)
          ((Chain.ofLiteral (Bit.text (.block (m' + n)))).content? q) := by
        rw [content?_block, content?_block]
        exact .some (.inr ⟨.inr n, hk n List.mem_cons_self, rfl, rfl⟩)
      refine Piece.rel_bind hcontent fun x x' hx => ?_
      refine Piece.rel_bind (matching_takeString? hone hs hx) fun s s' hs => ?_
      exact ih h.block h'.block hplaced.2 hk' hs

variable {t t' : List Char} {v v' : Json}

/-- Values that are read from the same slots match. -/
theorem matching_read (ht : Piece.cut t = slots.map (piece m))
    (ht' : Piece.cut t' = slots.map (piece m')) (hplaced : Placed slots)
    (hk : ∀ n, .block n ∈ slots → n < k) (hp : p.WellFormed) (hq : q.WellFormed)
    (hr : Json.read (quoteChains t p).1 = .ok v) (hr' : Json.read (quoteChains t' q).1 = .ok v') :
    Matching (Shifted p.nextExpression m q.nextExpression m'
      (Agreed p.nextExpression q.nextExpression k (quoteChains t p).2 (quoteChains t' q).2))
        v v' := by
  have hreading : Reading m p.nextExpression (quoteChains t p).2 slots 0 p :=
    ⟨⟨t, ht⟩, hp, rfl, by rw [quoteChains_eq, ht]⟩
  have hreading' : Reading m' q.nextExpression (quoteChains t' q).2 slots 0 q :=
    ⟨⟨t', ht'⟩, hq, rfl, by rw [quoteChains_eq, ht']⟩
  have hmatch := matching_readAll? hreading hreading' hplaced hk
    (⟨.nil, .value⟩ : MatchingState _ .initial .initial)
  rw [← ht, ← ht', ← read_quoteChains, ← read_quoteChains, hr, hr'] at hmatch
  obtain ⟨hmatch⟩ := hmatch
  exact hmatch

theorem not_isPlaceholder_of_mem_keys (ht : Piece.cut t = slots.map (piece m))
    (hplaced : Placed slots) (hr : Json.read (quoteChains t p).1 = .ok v) {x : String}
    (hx : x ∈ v.keys) : ¬ IsPlaceholder x := by
  have hcount := (mem_of_read hr).2 x
  rw [ht] at hcount
  have hpos := Nat.lt_of_lt_of_le (List.count_pos_iff.2 hx) hcount
  exact not_isPlaceholder_of_mem_names hplaced (List.count_pos_iff.1 hpos)

end Reading

end Slot

/-! ## Readings of a text -/

namespace Bit

/-- The bits are a row of slots: no block is part of a literal, of the arguments of a directive or
of a concatenation, neither a block nor a concatenation is the name of a field, and no literal
denotes a placeholder. That the blocks are numbered from nought here does not matter
(`Slot.cut_textFrom`). -/
def HasSlots (bits : List Bit) : Prop :=
  ∃ slots : List Slot, slots.flatMap Slot.bits = bits
    ∧ Piece.cut (textFrom 0 bits) = slots.map (Slot.piece 0) ∧ Slot.Placed slots

end Bit

namespace Placeholders

/-- The value of a text without blocks, with its expressions put back. -/
def readChains (t : List Char) (p : Placeholders) : Except TemplateError Json × Placeholders :=
  let (plain, p) := quoteChains t p
  match Json.read plain with
  | .error e => (.error (.badSyntax e), p)
  | .ok v =>
    let (v, p) := p.reinstate v
    (.ok v, p)

theorem readChains_of_error {p : Placeholders} {t : List Char} {e : SyntaxError}
    (h : Json.read (quoteChains t p).1 = .error e) :
    (p.readChains t).1 = .error (.badSyntax e) := by
  simp only [readChains, h]

theorem readChains_of_ok {p : Placeholders} {t : List Char} {v : Json}
    (h : Json.read (quoteChains t p).1 = .ok v) :
    (p.readChains t).1 = .ok ((quoteChains t p).2.reinstate v).1 := by
  simp only [readChains, h]

theorem readTemplate_eq (t : List Char) (p : Placeholders) :
    readTemplate t p = readChains (RepeatBlock.extract t p).1 (RepeatBlock.extract t p).2 :=
  rfl

end Placeholders

/-- Errors that differ in their place only. -/
inductive TemplateError.Similar : TemplateError → TemplateError → Prop
  | badSyntax {e e' : SyntaxError} (h : e.cause = e'.cause) : Similar (.badSyntax e) (.badSyntax e')

/-- Two readings: values that differ in the numbers of their first `k` blocks only, or errors that
differ in their place only. -/
inductive SameReading (m m' k : Nat) :
    Except TemplateError Json → Except TemplateError Json → Prop
  | ok {v v' : Json} (h : Matching (SameName m m' k) v v')
    (hkeys : ∀ x ∈ v.keys, ∀ y, SameName m m' k x y → x = y) :
    SameReading m m' k (.ok v) (.ok v')
  | error {e e' : TemplateError} (h : e.Similar e') : SameReading m m' k (.error e) (.error e')

section Texts

variable {last last' : Placeholders} {x y : String}

theorem Placeholders.WellFormed.textOf_of_ne {p : Placeholders} (hp : p.WellFormed)
    (h : ∀ n, x ≠ ofExpression n) : p.textOf x = x := by
  rw [textOf]
  cases he : p.expression? x with
  | none => rfl
  | some text =>
    obtain ⟨n, hn⟩ := hp.ofExpression_of_expression? (by rw [he]; rfl)
    exact absurd hn (h n)

theorem Placeholders.WellFormed.ne_ofBlock {p : Placeholders} (hp : p.WellFormed) {text : String}
    (h : p.expression? x = some text) (name : String) : text ≠ ofBlock name := by
  rintro rfl
  obtain ⟨before, after, hmem, -⟩ := List.lookup_eq_some_iff.1 h
  have := hp.expression (x, ofBlock name) (by rw [hmem]; simp)
  rw [blockName?_ofBlock] at this
  cases this

/-- With its expressions put back, what has been read differs in the names of blocks only. -/
theorem Placeholder.Shifted.textOf {e m e' m' k : Nat} (hlast : last.WellFormed)
    (hlast' : last'.WellFormed) (h : Shifted e m e' m' (Slot.Agreed e e' k last last') x y) :
    SameName m m' k (last.textOf x) (last'.textOf y) := by
  rcases h with ⟨rfl, hx⟩ | ⟨i | n, hi, rfl, rfl⟩
  · rw [hlast.textOf_of_ne fun n hn => hx (.inl ⟨n, hn⟩),
      hlast'.textOf_of_ne fun n hn => hx (.inl ⟨n, hn⟩)]
    exact .inl ⟨rfl, fun n hn => hx (.inr ⟨n, hn⟩)⟩
  · obtain ⟨text, h₁, h₂⟩ := hi
    rw [numbered, numbered, Placeholders.textOf, Placeholders.textOf, h₁, h₂]
    exact .inl ⟨rfl, fun n => hlast.ne_ofBlock h₁ _⟩
  · rw [numbered, numbered, hlast.textOf_of_ne fun j => ofBlock_ne_ofExpression _ j,
      hlast'.textOf_of_ne fun j => ofBlock_ne_ofExpression _ j]
    exact .inr ⟨n, hi, rfl, rfl⟩

end Texts

/-- With two tables the readings are the same. -/
theorem Bit.HasSlots.sameReading {bits : List Bit} (h : HasSlots bits) {k : Nat}
    (hk : ∀ n, .block n ∈ bits → n < k) (m m' : Nat) {p q : Placeholders} (hp : p.WellFormed)
    (hq : q.WellFormed) :
    SameReading m m' k (p.readChains (textFrom m bits)).1 (q.readChains (textFrom m' bits)).1 := by
  obtain ⟨slots, rfl, hcut, hplaced⟩ := h
  have hk : ∀ n, .block n ∈ slots → n < k := fun n hn =>
    hk n (List.mem_flatMap.2 ⟨_, hn, List.mem_singleton_self _⟩)
  have ht := Slot.cut_textFrom m hcut
  have ht' := Slot.cut_textFrom m' hcut
  generalize textFrom m (slots.flatMap Slot.bits) = t at ht ⊢
  generalize textFrom m' (slots.flatMap Slot.bits) = t' at ht' ⊢
  have houtcome : outcome (Json.read (quoteChains t p).1)
      = outcome (Json.read (quoteChains t' q).1) := by
    rw [quoteChains_eq, quoteChains_eq, ht, ht']
    exact (Slot.kindred_quoteAll slots p q).outcome_eq
  rcases outcome_cases houtcome with ⟨e, e', hr, hr', hcause⟩ | ⟨v, v', hr, hr', -⟩
  · rw [Placeholders.readChains_of_error hr, Placeholders.readChains_of_error hr']
    exact .error (.badSyntax hcause)
  · have hmatch := Slot.matching_read ht ht' hplaced hk hp hq hr hr'
    have hkeys : ∀ x ∈ v.keys, ¬ IsPlaceholder x := fun x =>
      Slot.not_isPlaceholder_of_mem_keys ht hplaced hr
    rw [Placeholders.readChains_of_ok hr, Placeholders.readChains_of_ok hr',
      reinstate_read hp (ht ▸ Slot.fresh hplaced) hr,
      reinstate_read hq (ht' ▸ Slot.fresh hplaced) hr']
    refine .ok (Matching.replaceStrings (fun x y h => h.textOf (hp.quoteChains t)
      (hq.quoteChains t')) hmatch fun x hx y hxy => ?_) fun x hx y hxy => ?_
    · rcases hxy with ⟨rfl, -⟩ | ⟨i, -, rfl, -⟩
      · exact .inl ⟨rfl, fun n hn => hkeys x hx (.inr ⟨n, hn⟩)⟩
      · exact absurd (isPlaceholder_numbered _ _ i) (hkeys _ hx)
    · rw [keys_replaceStrings] at hx
      rcases hxy with ⟨rfl, -⟩ | ⟨n, -, rfl, -⟩
      · rfl
      · exact absurd (.inr ⟨_, rfl⟩) (hkeys _ hx)

end JsonTemplate
