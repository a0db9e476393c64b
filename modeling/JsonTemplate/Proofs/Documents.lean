import JsonTemplate.Proofs.Failure
import JsonTemplate.Proofs.Intrusion
import JsonTemplate.Proofs.Roots

/-!
# JSON documents as templates

A JSON document without repeat blocks is left as it is (`quoteChains_of_lawful`). If a block is
taken out of its strings, what is left is no JSON, unless it is a concatenation and nothing else
(`Template.expand_document_iff`).
-/

namespace JsonTemplate

open Text Json Json.ReaderState Bit

/-- A text that goes on amiss is not JSON, unless it ends with a chain. -/
theorem Amiss.doomed {t : List Char} (h : Amiss t) : t = [] ∨ Piece.Doomed t := by
  rcases h with ⟨bits, rfl, h⟩ | ⟨u, rfl⟩ | rfl
  · exact .inr h.doomed
  · exact .inr (.inl (Piece.dead_underscore u))
  · exact .inl rfl

/-! ## Literals -/

namespace Bit.Lawful

/-- Nothing is joined to a string. -/
theorem splitJoin?_eq_none {bits : List Bit} (h : Lawful .past bits) :
    splitJoin? (textOf bits) = none := by
  refine JsonTemplate.splitJoin?_eq_none ?_
  induction bits with
  | nil => nofun
  | cons b bits ih =>
    cases b with
    | block n =>
      obtain ⟨u, -, hblock⟩ := textOf_block n bits
      rw [hblock, skipBlanks_cons rfl]
      simp
    | char c =>
      obtain ⟨hadmits, hbits⟩ := h.char
      cases hblank : isJsonBlank c with
      | true =>
        have hquote : c ≠ '"' := by
          rintro rfl
          cases hblank
        rw [Spot.next, if_neg hquote, if_pos hblank] at hbits
        rw [textOf_char, skipBlanks, List.dropWhile_cons_of_pos hblank]
        exact ih hbits
      | false =>
        rw [textOf_char, skipBlanks_cons hblank]
        simpa using hadmits.2.2.2

end Bit.Lawful

/-- What follows a literal that ends within the bits: the text after its string, or what is left of
a placeholder in the string. -/
def FollowsLiteral (bits : List Bit) (rest : List Char) : Prop :=
  (∃ (t : List Char) (bits' : List Bit), bits = t.map .char ++ bits' ∧ Lawful .past bits'
      ∧ rest = textOf bits')
    ∨ (∃ b ∈ bits, b.IsBlock) ∧ ∃ u, rest = '_' :: u

theorem FollowsLiteral.cons {bits : List Bit} {rest : List Char} (h : FollowsLiteral bits rest)
    (c : Char) : FollowsLiteral (.char c :: bits) rest := by
  rcases h with ⟨t, bits', rfl, hpast, hrest⟩ | ⟨⟨b, hb, hblock⟩, hrest⟩
  · exact .inl ⟨c :: t, bits', rfl, hpast, hrest⟩
  · exact .inr ⟨⟨b, List.mem_cons_of_mem _ hb, hblock⟩, hrest⟩

theorem Bit.Lawful.followsLiteral_splitQuoted : ∀ {bits : List Bit} (escaped : Bool),
    Lawful (if escaped then .escaped else .within) bits →
      FollowsLiteral bits (Operand.splitQuoted escaped (textOf bits)).2
  | [], escaped, h => by
    cases escaped <;> rcases h.closed with hspot | hspot <;> cases hspot
  | .char c :: bits, true, h => (followsLiteral_splitQuoted false h.char.2).cons c
  | .char c :: bits, false, h => by
    have hbits := h.char.2
    by_cases hquote : c = '"'
    · subst hquote
      rw [textOf_char, Operand.splitQuoted, if_pos rfl]
      exact .inl ⟨['"'], bits, rfl, hbits, rfl⟩
    · rw [textOf_char, Operand.splitQuoted, if_neg hquote]
      refine FollowsLiteral.cons (followsLiteral_splitQuoted (c == '\\') ?_) c
      rw [if_neg Bool.false_ne_true, Spot.next, if_neg hquote] at hbits
      simpa using hbits
  | .block n :: bits, true, h => absurd rfl h.block.1
  | .block n :: bits, false, h => by
    obtain ⟨u, -, hblock⟩ := textOf_block n bits
    rw [hblock, Operand.splitQuoted, if_pos rfl]
    exact .inr ⟨⟨_, List.mem_cons_self, trivial⟩, _, rfl⟩

/-! ## Chains outside strings -/

namespace Bit.Lawful

/-- A chain outside the strings is a string, or a block is in it. -/
theorem split?_cases {bits : List Bit} {s : Spot} {chain : Chain} {rest : List Char}
    (h : Lawful s bits) (hs : s.IsClosed) (hc : Chain.split? (textOf bits) = some (chain, rest)) :
    (∃ (t : List Char) (bits' : List Bit), bits = t.map .char ++ bits' ∧ Lawful .past bits'
        ∧ rest = textOf bits' ∧ chain.operands.any Operand.isToken = false)
      ∨ (∃ b ∈ bits, b.IsBlock) ∧ (rest = [] ∨ Piece.Doomed rest) := by
  obtain ⟨o, rest', ho, rfl, rfl⟩ := Chain.split?_eq_some hc
  rcases bits with _ | ⟨c | n, bits⟩
  · cases ho
  · obtain ⟨hadmits, hbits⟩ := h.char
    rcases Operand.split?_eq_some ho with ⟨u, hu, rfl, rfl⟩ | ⟨k, hk, -⟩
    · rw [textOf_char, List.cons.injEq] at hu
      obtain ⟨rfl, rfl⟩ := hu
      rw [hs.next_quote] at hbits
      rcases (followsLiteral_splitQuoted false hbits).cons '"' with
        ⟨t, bits', hbits', hpast, hrest⟩ | ⟨hblock, u, hrest⟩
      · rw [hrest, Chain.splitJoined_of_none hpast.splitJoin?_eq_none]
        exact .inl ⟨t, bits', hbits', hpast, rfl, rfl⟩
      · rw [hrest, Chain.splitJoined_of_none (splitJoin?_underscore u)]
        exact .inr ⟨hblock, .inr (.inl (Piece.dead_underscore u))⟩
    · have hsign : c = '@' := by
        rw [textOf_char] at hk
        unfold Token.split? at hk
        split at hk
        · rename_i heq
          exact (List.cons.inj heq).1
        · cases hk
      exact absurd hsign (hs.admits hadmits).2.2
  · -- The placeholder is a literal of its own, and the string goes on after it.
    have hwithin : Lawful .within (.block n :: bits) :=
      ⟨⟨by decide, h.block.2.sound⟩, h.block.2.closed⟩
    exact .inr ⟨⟨_, List.mem_cons_self, trivial⟩,
      (Amiss.joined rest' (hwithin.amiss_operand ho)).doomed⟩

/-- A block in a string leaves no JSON, unless the text ends with a chain. -/
theorem doomed_of_block {bits : List Bit} {s : Spot} (h : Lawful s bits) (hs : s.IsClosed)
    (hblock : ∃ b ∈ bits, b.IsBlock) : Piece.Doomed (textOf bits) := by
  obtain ⟨t, ht⟩ : ∃ t, textOf bits = t := ⟨_, rfl⟩
  rw [ht]
  fun_induction Piece.cut t generalizing bits s with
  | case1 =>
    obtain ⟨b, hb, -⟩ := hblock
    rw [eq_nil_of_textOf ht] at hb
    cases hb
  | case2 c t hsplit ih =>
    have hquote := Piece.other_ne_quote hsplit
    rcases bits with _ | ⟨d | n, bits⟩
    · cases ht
    · obtain ⟨rfl, rfl⟩ := List.cons.inj ht
      refine Piece.doomed_of_split?_eq_none hsplit (ih h.char.2 (hs.next hquote) ?_ rfl)
      obtain ⟨b, hb, hblock⟩ := hblock
      rcases List.mem_cons.1 hb with rfl | hb
      · exact hblock.elim
      · exact ⟨b, hb, hblock⟩
    · obtain ⟨u, -, htext⟩ := textOf_block n bits
      rw [htext, List.cons.injEq] at ht
      exact absurd ht.1.symm hquote
  | case3 c t chain rest hsplit ih =>
    rw [← ht] at hsplit
    refine Piece.doomed_of_split? (ht ▸ hsplit) ?_
    rcases h.split?_cases hs hsplit with ⟨u, bits', rfl, hpast, rfl, -⟩ | ⟨-, hrest⟩
    · refine .inr (ih hpast (.inr rfl) ?_ rfl)
      obtain ⟨b, hb, hblock⟩ := hblock
      rcases List.mem_append.1 hb with hb | hb
      · obtain ⟨d, -, rfl⟩ := List.mem_map.1 hb
        exact hblock.elim
      · exact ⟨b, hb, hblock⟩
    · exact hrest

end Bit.Lawful

/-- The chains of a JSON text are its strings, and stay as they are. -/
theorem quoteChains_of_lawful (t : List Char) (p : Placeholders) {s : Spot}
    (h : Lawful s (t.map .char)) (hs : s.IsClosed) : quoteChains t p = (t, p) := by
  rw [quoteChains_eq]
  fun_induction Piece.cut t generalizing s with
  | case1 => rfl
  | case2 c t hsplit ih =>
    rw [Piece.quoteAll, Piece.toPlain, ih h.char.2 (hs.next (Piece.other_ne_quote hsplit))]
    rfl
  | case3 c t chain rest hsplit ih =>
    have hbits : Chain.split? (textOf ((c :: t).map .char)) = some (chain, rest) := by
      rw [textOf_map_char, hsplit]
    rcases h.split?_cases hs hbits with ⟨u, bits', happ, hpast, rfl, htoken⟩ | ⟨⟨b, hb, hblock⟩, -⟩
    · obtain ⟨x, y, -, -, rfl⟩ := List.map_eq_append_iff.1 happ
      rw [textOf_map_char] at hsplit ih ⊢
      have hplain : chain.toPlain p = (chain.text, p) := by
        rw [Chain.toPlain, if_neg (by simp [htoken])]
      rw [Piece.quoteAll, Piece.toPlain, hplain, ih hpast (.inr rfl), Chain.split?_append hsplit]
    · obtain ⟨d, -, rfl⟩ := List.mem_map.1 hb
      exact hblock.elim

/-! ## Where a chain may come last -/

/-- A chain is the last piece of a text only if blanks alone are before it. -/
theorem Piece.initial_of_readAll? {chain : Chain} {v : Json} : ∀ {front : List Piece}
    {p : Placeholders} {s : ReaderState}, readAll? (front ++ [.chained chain]) p s = some v →
      s = .initial ∧ ∀ piece ∈ front, ∃ c, piece = .other c ∧ isJsonBlank c = true
  | [], p, s, h => by
    obtain ⟨x, -, h⟩ := Option.bind_eq_some_iff.1 h
    obtain ⟨s', htake, h⟩ := Option.bind_eq_some_iff.1 h
    exact ⟨eq_initial_of_takeString? htake (eq_ok_of_toOption h), nofun⟩
  | .other c :: front, p, s, h => by
    obtain ⟨s', hs, h⟩ := Option.bind_eq_some_iff.1 h
    obtain ⟨rfl, hfront⟩ := initial_of_readAll? h
    obtain ⟨hinitial, hblank⟩ := eq_initial_of_step (eq_ok_of_toOption hs)
    exact ⟨hinitial, List.forall_mem_cons.2 ⟨⟨c, rfl, hblank⟩, hfront⟩⟩
  | .chained chain' :: front, p, s, h => by
    obtain ⟨x, -, h⟩ := Option.bind_eq_some_iff.1 h
    obtain ⟨s', htake, h⟩ := Option.bind_eq_some_iff.1 h
    obtain ⟨rfl, -⟩ := initial_of_readAll? h
    exact absurd htake (takeString?_ne_initial s x)

theorem Chain.exists_content? {chain : Chain} (h : chain.operands.any Operand.isToken = true)
    (p : Placeholders) : ∃ x, chain.content? p = some x := by
  unfold content?
  split
  · exact ⟨_, rfl⟩
  · rename_i t hos
    rw [hos] at h
    cases h
  · exact ⟨_, if_pos h⟩

theorem Piece.eq_nil_of_cut {t : List Char} (h : cut t = []) : t = [] := by
  cases t with
  | nil => rfl
  | cons c t =>
    cases hc : Chain.split? (c :: t) with
    | none =>
      rw [cut_of_split?_eq_none hc] at h
      cases h
    | some r =>
      obtain ⟨chain, rest⟩ := r
      rw [cut_of_split? hc] at h
      cases h

/-- If one string is all that is read, but the text goes on within a string, a token is joined to
it. -/
theorem Chain.isToken_of_content? {bits : List Bit} (h : Lawful .within bits) {t x : List Char}
    {p : Placeholders} {y : String} (hcut : Piece.cut (splitJoined (textOf bits)).2 = [])
    (hcontent : content? ⟨x, .literal t :: (splitJoined (textOf bits)).1.operands⟩ p = some y) :
    (splitJoined (textOf bits)).1.operands.any Operand.isToken = true := by
  cases hj : splitJoin? (textOf bits) with
  | none =>
    rw [splitJoined_of_none hj] at hcut
    exact absurd (Piece.eq_nil_of_cut hcut) h.textOf_ne_nil
  | some r =>
    obtain ⟨join, o, rest⟩ := r
    rw [splitJoined_of_some hj] at hcontent ⊢
    rw [content?_of_joined (by simp)] at hcontent
    split at hcontent
    · rename_i htoken
      exact htoken
    · cases hcontent

/-- A placeholder at the head of a text is the first operand of a chain. -/
theorem Chain.exists_split?_block (n : Nat) (bits : List Bit) : ∃ t x,
    split? (textOf (.block n :: bits))
      = some (⟨x, .literal t :: (splitJoined (textOf bits)).1.operands⟩,
        (splitJoined (textOf bits)).2) := by
  obtain ⟨u, hu, htext⟩ := textOf_block n bits
  have hplain : ∀ c ∈ '_' :: u, c ≠ '"' ∧ c ≠ '\\' := by
    intro c hc
    rcases List.mem_cons.1 hc with rfl | hc
    · decide
    · exact Token.plain_of_isNameChar (hu c hc)
  have hliteral := Operand.splitQuoted_plain hplain (textOf bits)
  rw [htext, split?, Operand.split?]
  rw [List.cons_append] at hliteral
  rw [hliteral]
  exact ⟨_, _, rfl⟩

namespace RepeatBlock

/-- The text is still JSON when its blocks are taken out and its chains are replaced: there is no
block, or what is left is a concatenation. -/
def LeavesJson (t : List Char) : Prop :=
  (extract t {}).2.blocks = [] ∨
    ∃ chain, Piece.cut (extract t {}).1 = [.chained chain]
      ∧ chain.operands.any Operand.isToken = true

/-- A container with a block in it is no JSON any more, but for a concatenation. -/
theorem Rendering.exists_chain {t : List Char} {bits : List Bit} {p : Placeholders}
    (h : Rendering t bits p) (hblocks : p.blocks ≠ []) {c : Char} (hc : c ∈ t.head?)
    {container : Container} (hopen : Container.ofOpening? c = some container) {v : Json}
    (hv : Piece.readAll? (Piece.cut (textOf bits)) p .initial = some v) :
    ∃ chain, Piece.cut (textOf bits) = [.chained chain]
      ∧ chain.operands.any Operand.isToken = true := by
  obtain ⟨front, chain, hcut⟩ :
      ∃ front chain, Piece.cut (textOf bits) = front ++ [.chained chain] := by
    rcases h.lawful.doomed_of_block (.inl rfl) (h.marked hblocks) with hdead | hchained
    · rw [hdead p .initial isBetween_initial trivial] at hv
      cases hv
    · exact hchained
  have hfront := (Piece.initial_of_readAll? (hcut ▸ hv)).2
  obtain ⟨b, rest, rfl, hb⟩ := h.head c hc
  rcases b with d | n
  · -- The opening bracket is left, which is neither a blank nor a chain.
    obtain rfl : d = c := by
      rcases hb with hb | hb
      · exact Bit.char.inj hb
      · exact hb.elim
    have hplain : d ≠ '"' ∧ d ≠ '@' ∧ isJsonBlank d = false := by
      rcases Container.eq_of_ofOpening? hopen with rfl | rfl <;> decide
    rw [textOf_char, Piece.cut_cons hplain.1 hplain.2.1] at hcut
    rcases front with _ | ⟨piece, front⟩
    · cases hcut
    · obtain ⟨rfl, -⟩ := List.cons.inj hcut
      obtain ⟨e, he, hblank⟩ := hfront _ List.mem_cons_self
      cases he
      rw [hplain.2.2] at hblank
      cases hblank
  · -- A block took the opening bracket, and the text is a chain from its first character on.
    obtain ⟨u, x, hsplit⟩ := Chain.exists_split?_block n rest
    have hfirst := Piece.cut_of_split? hsplit
    rcases front with _ | ⟨piece, front⟩
    · rw [hfirst, List.nil_append, List.cons.injEq] at hcut
      obtain ⟨-, hlast⟩ := hcut
      rw [hfirst, hlast] at hv ⊢
      obtain ⟨y, hcontent, -⟩ := Option.bind_eq_some_iff.1 hv
      exact ⟨_, rfl, Chain.isToken_of_content? h.lawful.block.2 hlast hcontent⟩
    · rw [hfirst] at hcut
      obtain ⟨rfl, -⟩ := List.cons.inj hcut
      obtain ⟨e, he, -⟩ := hfront _ List.mem_cons_self
      cases he

/-- A JSON text that is a container can be read again once its blocks and chains are replaced
exactly if no block is in it or a concatenation is left. -/
theorem exists_read_toPlainJson_iff {c : Char} {u : List Char} {container : Container} {v : Json}
    (hopen : Container.ofOpening? c = some container) (h : Json.read (c :: u) = .ok v) :
    (∃ w, Json.read (toPlainJson (c :: u) {}).1 = .ok w) ↔ LeavesJson (c :: u) := by
  obtain ⟨bits, htext, hrendering⟩ := rendering_extract h
  have hread : (Json.read (toPlainJson (c :: u) {}).1).toOption
      = Piece.readAll? (Piece.cut (textOf bits)) (extract (c :: u) {}).2 .initial := by
    rw [← htext]
    exact read_quoteChains _ _
  by_cases hblocks : (extract (c :: u) {}).2.blocks = []
  · refine iff_of_true ⟨v, ?_⟩ (.inl hblocks)
    have hbits := hrendering.plain hblocks
    have hplain := quoteChains_of_lawful (c :: u) (extract (c :: u) {}).2
      (hbits ▸ hrendering.lawful) (.inl rfl)
    rw [hbits, textOf_map_char] at htext
    rw [toPlainJson]
    simp only [htext, hplain, h]
  · refine ⟨fun ⟨w, hw⟩ => .inr ?_, fun hleaves => ?_⟩
    · rw [htext]
      refine hrendering.exists_chain hblocks rfl hopen (v := w) ?_
      rw [← hread, hw]
      rfl
    · obtain ⟨chain, hcut, htoken⟩ := hleaves.resolve_left hblocks
      obtain ⟨x, hx⟩ := Chain.exists_content? htoken (extract (c :: u) {}).2
      rw [htext] at hcut
      rw [hcut, Piece.readAll?, hx] at hread
      exact ⟨_, eq_ok_of_toOption hread⟩

end RepeatBlock

namespace Template

/-- A JSON document that is an array or object is taken as it is, and no source makes its expansion
fail, exactly if its repeat marks leave it JSON. -/
theorem expand_document_iff (t : List Char) (v : Json) (container : Container)
    (h : Json.read t = .ok v) (hv : v.container? = some container) :
    ∃ text, Plan.ofText? t = some (.once container text) ∧ Json.read text = .ok v
      ∧ ((∃ w, Json.read (toPlainJson text {}).1 = .ok w) ↔ RepeatBlock.LeavesJson text)
      ∧ ∀ (σ : Type) (source : ValueSource σ) (s : σ),
        (∀ e s', (expand source t).run.run s ≠ .ok (.error e, s'))
          ↔ RepeatBlock.LeavesJson text := by
  obtain ⟨c, u, hopen, hplan, hread⟩ := exists_root_of_read h hv
  have hiff := RepeatBlock.exists_read_toPlainJson_iff hopen hread
  refine ⟨c :: u, hplan, hread, hiff, fun σ source s => ?_⟩
  rw [← hiff, expand, hplan]
  simp only [ne_eq, run_once_eq_error_iff, check]
  cases Json.read (toPlainJson (c :: u) {}).1 with
  | ok w => simp
  | error e => simp

/-- Directives, a sign and a mark in strings, and brackets that no mark follows. -/
def quotedSigns : List Char :=
  "\x7b\"@x\": \"[1] + @repeat(2)\"\x7d".toList

theorem expand_document_quotedSigns :
    Json.read quotedSigns = .ok (.object [("@x", .string "[1] + @repeat(2)")])
      ∧ ¬ ∃ e s', (expand (ValueSource.constant .null) quotedSigns).run.run ()
        = .ok (.error e, s') := by
  have hread : Json.read quotedSigns = .ok (.object [("@x", .string "[1] + @repeat(2)")]) := rfl
  refine ⟨hread, ?_⟩
  obtain ⟨text, hplan, -, -, hiff⟩ := expand_document_iff quotedSigns _ .object hread rfl
  have hroot : Plan.ofText? quotedSigns = some (.once .object quotedSigns) := by decide +kernel
  obtain rfl : quotedSigns = text := by
    rw [hroot] at hplan
    cases hplan
    rfl
  rintro ⟨e, s', hrun⟩
  have hblocks : (RepeatBlock.extract quotedSigns {}).2.blocks = [] := by decide +kernel
  exact (hiff Unit (.constant .null) ()).2 (.inl hblocks) e s' hrun

/-- An array and a mark in a string are taken for a block, and the document is refused. -/
theorem expand_document_refused : ¬ ∀ (t : List Char) (v : Json) (container : Container),
    Json.read t = .ok v → v.container? = some container →
      ∀ (σ : Type) (source : ValueSource σ) (s : σ) (e : TemplateError) (s' : σ),
        (expand source t).run.run s ≠ .ok (.error e, s') := by
  intro h
  have hread : Json.read "\x7b\"a\": \"[x] @repeat(2)\"\x7d".toList
      = .ok (.object [("a", .string "[x] @repeat(2)")]) := rfl
  have hfails : ((expand (ValueSource.constant .null)
      "\x7b\"a\": \"[x] @repeat(2)\"\x7d".toList).run.run ()).toOption.map
        (fun r => r.1.toOption.isSome) = some false := by
    decide +kernel
  rcases hrun : (expand (ValueSource.constant .null)
      "\x7b\"a\": \"[x] @repeat(2)\"\x7d".toList).run.run () with halt | ⟨e | e, s⟩
  · rw [hrun] at hfails
    cases hfails
  · exact h _ _ .object hread rfl Unit _ () e s hrun
  · rw [hrun] at hfails
    cases hfails

end Template

end JsonTemplate
