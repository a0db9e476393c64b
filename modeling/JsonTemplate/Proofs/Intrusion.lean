import JsonTemplate.Proofs.Quotation

/-!
# Blocks in strings

In a JSON text a repeat mark can only stand within a string. A block that is taken out for it leaves
a text in which the string goes on after the placeholder (`RepeatBlock.rendering_extract`): the
quotes no longer pair, and what is left is not JSON (`Bit.Lawful.doomed`), unless it has become one
concatenation.
-/

namespace JsonTemplate

open Text Json Json.ReaderState

theorem Token.plain_of_isNameChar {c : Char} (h : Token.isNameChar c = true) :
    c ≠ '"' ∧ c ≠ '\\' := by
  constructor <;> rintro rfl <;> cases h

/-- A literal ends at its first quote if no backslash is before it. -/
theorem Operand.splitQuoted_plain {t : List Char} (ht : ∀ c ∈ t, c ≠ '"' ∧ c ≠ '\\')
    (rest : List Char) :
    Operand.splitQuoted false (t ++ '"' :: rest) = (t ++ ['"'], rest) := by
  induction t with
  | nil => rfl
  | cons c t ih =>
    obtain ⟨hquote, hslash⟩ := ht c List.mem_cons_self
    have hslash : (c == '\\') = false := by simpa using hslash
    rw [List.cons_append, splitQuoted, if_neg hquote, hslash,
      ih fun d hd => ht d (List.mem_cons_of_mem c hd)]
    rfl

namespace Bit

/-- Characters other than quotes and backslashes do not lead out of a string. -/
theorem after_plain {t : List Char} (ht : ∀ c ∈ t, c ≠ '"' ∧ c ≠ '\\') :
    after .within (t.map .char) = .within := by
  induction t with
  | nil => rfl
  | cons c t ih =>
    obtain ⟨hquote, hslash⟩ := ht c List.mem_cons_self
    rw [List.map_cons, after, Spot.next_within hquote hslash]
    exact ih fun d hd => ht d (List.mem_cons_of_mem c hd)

end Bit

/-! ## Extraction -/

namespace RepeatBlock

open Bit

/-- What a text is while its blocks are taken out: lawful bits, which are those of the text as long
as there is no block. -/
structure Rendering (t : List Char) (bits : List Bit) (p : Placeholders) : Prop where
  lawful : Lawful .outside bits
  plain : p.blocks = [] → bits = t.map .char
  marked : p.blocks ≠ [] → ∃ b ∈ bits, b.IsBlock
  head : ∀ c ∈ t.head?, ∃ b rest, bits = b :: rest ∧ (b = .char c ∨ b.IsBlock)

/-- A mark is within a string, where the text goes on after the block. -/
theorem Rendering.recordBlock {t u blanks ds rest before : List Char} {bits : List Bit}
    {p : Placeholders} (h : Rendering t (bits ++ (mark ds ++ rest).map .char) p)
    (htext : textOf bits = before ++ '[' :: (u ++ blanks)) (template : List Char) (count : Nat)
    (hds : ∀ d ∈ ds, isDecimalDigit d = true) :
    ∃ xs, textOf xs = before ∧ Rendering t (xs ++ .block p.nextBlock :: rest.map .char)
      (p.recordBlock ⟨String.ofList template, count⟩).2 := by
  obtain ⟨xs, ys, rfl, hxs, -⟩ := exists_eq_of_textOf (by decide) rfl htext
  refine ⟨xs, hxs, ?_, fun hnil => ?_, fun _ => ⟨.block p.nextBlock, by simp, trivial⟩,
    fun c hc => ?_⟩
  · obtain ⟨hbits, hmark⟩ := lawful_append.1 h.lawful
    obtain ⟨hfront, hopen⟩ := (sound_append _ _ _).1 hbits
    have hescaped : after .outside xs ≠ .escaped := by
      intro hspot
      have := hopen.1
      rw [hspot] at this
      exact this.1 rfl
    have hsign : mark ds ++ rest = '@' :: ("repeat(".toList ++ ds ++ [')']) ++ rest := rfl
    rw [hsign, List.cons_append, List.map_cons] at hmark
    have hwithin := hmark.char.1.eq_within (.inr rfl)
    have hrest := hmark.char.2
    rw [hwithin, show Spot.within.next '@' = .within from rfl, List.map_append,
      lawful_append, after_plain] at hrest
    · exact lawful_append.2 ⟨hfront, ⟨hescaped, hrest.2.sound⟩, hrest.2.closed⟩
    · intro c hc
      rw [List.mem_append, List.mem_append, List.mem_singleton] at hc
      rcases hc with (hc | hc) | rfl
      · have hplain : "repeat(".toList.all (fun d => d != '"' && d != '\\') = true := rfl
        simpa using List.all_eq_true.1 hplain c hc
      · have hdigit := hds c hc
        constructor <;> rintro rfl <;> revert hdigit <;> decide
      · decide
  · simp [Placeholders.recordBlock] at hnil
  · obtain ⟨b, front, hbits, hb⟩ := h.head c hc
    cases xs with
    | nil => exact ⟨_, _, rfl, .inr trivial⟩
    | cons x xs =>
      obtain ⟨rfl, -⟩ := List.cons.inj hbits
      exact ⟨_, _, rfl, hb⟩

theorem rendering_extractFrom {t : List Char} (before after : List Char) (p : Placeholders)
    (bits : List Bit) (htext : before.reverse = textOf bits)
    (h : Rendering t (bits ++ after.map .char) p) :
    ∃ bits', (extractFrom before after p).1 = textOf bits'
      ∧ Rendering t bits' (extractFrom before after p).2 := by
  fun_induction extractFrom before after p generalizing bits with
  | case1 before p => exact ⟨bits, htext, by simpa using h⟩
  | case2 before p c rest hm ih =>
    refine ih (bits ++ [.char c]) ?_ (by simpa using h)
    simp [htext]
  | case3 before p c rest ds after hm count template before' ha hc placeholder p' heq ih =>
    obtain ⟨blanks, hb⟩ := splitArray?_append ha
    obtain ⟨u, rfl⟩ := splitArray?_brackets ha
    obtain ⟨hmark, -, hds⟩ := splitMark?_eq_some_iff.1 hm
    rw [hmark] at h
    have hbits : textOf bits = before'.reverse ++ '[' :: (u ++ (']' :: blanks)) := by
      rw [← htext, hb]
      simp
    obtain ⟨xs, hxs, hrendering⟩ := h.recordBlock hbits ('[' :: (u ++ [']'])) count hds
    cases heq
    refine ih (xs ++ [.block p.nextBlock]) ?_ ?_
    · rw [textOf_append, hxs]
      simp [textOf, text]
    · rw [List.append_assoc]
      exact hrendering
  | case4 before p c rest ds after hm _ =>
    refine ⟨bits ++ (c :: rest).map .char, ?_, h⟩
    rw [textOf_append, ← htext, textOf_map_char]

/-- Taking the blocks out of a JSON text leaves lawful bits. -/
theorem rendering_extract {t : List Char} {v : Json} (h : Json.read t = .ok v) :
    ∃ bits, (extract t {}).1 = textOf bits ∧ Rendering t bits (extract t {}).2 := by
  refine rendering_extractFrom [] t {} [] rfl
    ⟨lawful_of_read h, fun _ => rfl, fun hne => absurd rfl hne, fun c hc => ?_⟩
  obtain ⟨u, rfl⟩ := List.head?_eq_some_iff.1 hc
  exact ⟨_, _, rfl, .inl rfl⟩

end RepeatBlock

/-! ## Reading what is left -/

namespace Piece

/-- The pieces of the text cannot be read. -/
def Dead (t : List Char) : Prop :=
  ∀ p s, s.IsBetween → s.Spells → readAll? (cut t) p s = none

/-- The text ends with a chain. -/
def EndsChained (t : List Char) : Prop :=
  ∃ front chain, cut t = front ++ [.chained chain]

def Doomed (t : List Char) : Prop :=
  Dead t ∨ EndsChained t

theorem dead_of_stray {c : Char} (hc : Stray c) {t : List Char} (h : Chain.split? (c :: t) = none) :
    Dead (c :: t) := by
  intro p s hs hspells
  rw [cut_of_split?_eq_none h, readAll?, step_stray hs hspells hc]
  rfl

theorem dead_underscore (t : List Char) : Dead ('_' :: t) :=
  dead_of_stray (.inr (.inr (.inr rfl))) (Chain.split?_cons_eq_none (by decide) (by decide) t)

theorem doomed_of_split?_eq_none {c : Char} {t : List Char} (h : Chain.split? (c :: t) = none)
    (ht : Doomed t) : Doomed (c :: t) := by
  have hcut := cut_of_split?_eq_none h
  rcases ht with ht | ⟨front, chain, ht⟩
  · refine .inl fun p s hs hspells => ?_
    rw [hcut, readAll?]
    cases hstep : s.step c with
    | error r => rfl
    | ok s' =>
      exact ht p s' (isBetween_step hs (other_ne_quote h) hstep) (spells_step hspells hstep)
  · exact .inr ⟨.other c :: front, chain, by rw [hcut, ht]; rfl⟩

theorem doomed_of_split? {t rest : List Char} {chain : Chain}
    (h : Chain.split? t = some (chain, rest)) (hrest : rest = [] ∨ Doomed rest) : Doomed t := by
  have hcut := cut_of_split? h
  rcases hrest with rfl | hdead | ⟨front, last, hlast⟩
  · rw [cut] at hcut
    exact .inr ⟨[], chain, hcut⟩
  · refine .inl fun p s hs hspells => ?_
    rw [hcut, readAll?]
    cases chain.content? p with
    | none => rfl
    | some x =>
      cases htake : s.takeString? x with
      | none => exact congrArg (Option.bind · _) htake
      | some s' =>
        obtain ⟨⟨frames, role⟩, -, rfl⟩ := Option.map_eq_some_iff.1 htake
        rw [Option.bind_some, htake]
        exact hdead _ _ (isBetween_endString frames role _) (spells_endString frames role _)
  · exact .inr ⟨.chained chain :: front, last, by rw [hcut, hlast]; rfl⟩

end Piece

open Bit

/-- The text goes on within a string, or after a string with an underscore, or it is at its end. -/
def Amiss (rest : List Char) : Prop :=
  (∃ bits, rest = textOf bits ∧ Lawful .within bits) ∨ (∃ u, rest = '_' :: u) ∨ rest = []

namespace Bit.Lawful

/-- Plain characters within a string are passed over. -/
theorem advance {y : List Char} : ∀ {x : List Char} {bits : List Bit}, Lawful .within bits →
    textOf bits = x ++ y → (∀ c ∈ x, c ≠ '"' ∧ c ≠ '\\') →
      ∃ bits', y = textOf bits' ∧ Lawful .within bits'
  | [], bits, h, htext, _ => ⟨bits, htext.symm, h⟩
  | c :: x, [], _, htext, _ => by cases htext
  | c :: x, .char d :: bits, h, htext, hx => by
    obtain ⟨rfl, hrest⟩ := List.cons.inj htext
    obtain ⟨hquote, hslash⟩ := hx d List.mem_cons_self
    have hbits := h.char.2
    rw [Spot.next_within hquote hslash] at hbits
    exact advance hbits hrest fun e he => hx e (List.mem_cons_of_mem d he)
  | c :: x, .block n :: bits, h, htext, hx => by
    obtain ⟨u, -, hblock⟩ := textOf_block n bits
    rw [hblock] at htext
    obtain ⟨rfl, -⟩ := List.cons.inj htext
    exact absurd rfl (hx '"' List.mem_cons_self).1

/-- After a closing bracket a string goes on. -/
theorem bracket {bits : List Bit} {s : Spot} {x y : List Char} (h : Lawful s bits)
    (htext : textOf bits = x ++ ')' :: y) : ∃ bits', y = textOf bits' ∧ Lawful .within bits' := by
  obtain ⟨xs, ys, rfl, -, rfl⟩ := exists_eq_of_textOf (by decide) rfl htext
  obtain ⟨hadmits, hrest⟩ := (lawful_append.1 h).2.char
  rw [hadmits.eq_within (.inl rfl)] at hrest
  exact ⟨ys, rfl, hrest⟩

theorem token {bits : List Bit} {k : Token} {rest : List Char} (h : Lawful .within bits)
    (hk : Token.split? (textOf bits) = some (k, rest)) :
    ∃ bits', rest = textOf bits' ∧ Lawful .within bits' := by
  have happ := Token.split?_append hk
  have hwell := Token.wellFormed_of_split? hk
  cases ha : k.arguments with
  | some a =>
    refine h.bracket (x := '@' :: k.name ++ Token.methodText k.method ++ '(' :: a) ?_
    rw [← happ, Token.text, ha]
    simp [Token.argumentsText]
  | none =>
    have hpath : k.text = '@' :: k.name ++ Token.methodText k.method := by
      rw [Token.text, ha, Token.argumentsText, List.append_nil]
    refine h.advance (x := k.text) happ.symm fun c hc => ?_
    rcases hwell.path_chars c (hpath ▸ hc) with hname | rfl | rfl
    · exact Token.plain_of_isNameChar hname
    · decide
    · decide

/-- A literal from outside a string on: it ends where a string begins, or at a placeholder's first
quote, or does not end. -/
theorem amiss_splitQuoted : ∀ {bits : List Bit} {s : Spot}, Lawful s bits → s.IsClosed →
    Amiss (Operand.splitQuoted false (textOf bits)).2
  | [], _, _, _ => .inr (.inr rfl)
  | .char c :: bits, s, h, hs => by
    obtain ⟨hadmits, hbits⟩ := h.char
    by_cases hquote : c = '"'
    · subst hquote
      rw [hs.next_quote] at hbits
      exact .inl ⟨bits, rfl, hbits⟩
    · have hslash : (c == '\\') = false := by simpa using (hs.admits hadmits).1
      have := amiss_splitQuoted hbits (hs.next hquote)
      rw [textOf_char, Operand.splitQuoted, if_neg hquote, hslash]
      exact this
  | .block n :: bits, s, h, hs => by
    obtain ⟨u, -, hblock⟩ := textOf_block n bits
    rw [hblock, Operand.splitQuoted, if_pos rfl]
    exact .inr (.inl ⟨_, rfl⟩)

theorem amiss_operand {bits : List Bit} {o : Operand} {rest : List Char} (h : Lawful .within bits)
    (ho : Operand.split? (textOf bits) = some (o, rest)) : Amiss rest := by
  rcases Operand.split?_eq_some ho with ⟨u, hu, -, rfl⟩ | ⟨k, hk, -⟩
  · cases bits with
    | nil => cases hu
    | cons b bits =>
      cases b with
      | char c =>
        obtain ⟨rfl, rfl⟩ := List.cons.inj hu
        exact amiss_splitQuoted h.char.2 (.inr rfl)
      | block n =>
        obtain ⟨w, hw, hblock⟩ := textOf_block n bits
        rw [hblock, List.cons.injEq] at hu
        obtain ⟨-, rfl⟩ := hu
        refine .inl ⟨bits, ?_, h.block.2⟩
        rw [← List.cons_append, Operand.splitQuoted_plain]
        intro c hc
        rcases List.mem_cons.1 hc with rfl | hc
        · decide
        · exact Token.plain_of_isNameChar (hw c hc)
  · exact .inl (h.token hk)

end Bit.Lawful

theorem splitJoin?_underscore (t : List Char) : splitJoin? ('_' :: t) = none := by
  refine splitJoin?_eq_none ?_
  rw [skipBlanks_cons (by decide)]
  simp

theorem Amiss.join {t join rest : List Char} {o : Operand} (h : Amiss t)
    (hj : splitJoin? t = some (join, o, rest)) : Amiss rest := by
  obtain ⟨before, after, u, hb, ha, rfl, htext, ho⟩ := splitJoin?_eq_some hj
  rcases h with ⟨bits, rfl, h⟩ | ⟨v, rfl⟩ | rfl
  · have hplain : ∀ c ∈ before ++ '+' :: after, c ≠ '"' ∧ c ≠ '\\' := by
      intro c hc
      have hc : isJsonBlank c = true ∨ c = '+' := by
        rw [List.mem_append, List.mem_cons] at hc
        rcases hc with hc | hc | hc
        · exact .inl (hb c hc)
        · exact .inr hc
        · exact .inl (ha c hc)
      constructor <;> rintro rfl <;> revert hc <;> decide
    obtain ⟨bits', rfl, h'⟩ := h.advance htext hplain
    exact h'.amiss_operand ho
  · rw [splitJoin?_underscore] at hj
    cases hj
  · cases hj

theorem Amiss.joined (t : List Char) (h : Amiss t) : Amiss (Chain.splitJoined t).2 := by
  fun_induction Chain.splitJoined t with
  | case1 => exact h
  | case2 t join o rest hj chain rest' heq ih =>
    rw [heq] at ih
    exact ih (h.join hj)

theorem Bit.Lawful.textOf_ne_nil {bits : List Bit} (h : Lawful .within bits) :
    textOf bits ≠ [] := by
  intro hnil
  rw [eq_nil_of_textOf hnil] at h
  rcases h.closed with hspot | hspot <;> cases hspot

/-- What is left of a text in which a string goes on at its start is not JSON, unless it ends with a
chain. -/
theorem Bit.Lawful.doomed {bits : List Bit} (h : Lawful .within bits) :
    Piece.Doomed (textOf bits) := by
  obtain ⟨t, ht⟩ : ∃ t, textOf bits = t := ⟨_, rfl⟩
  rw [ht]
  -- Piece by piece: a character stays within the string, and after a chain the text is amiss again.
  fun_induction Piece.cut t generalizing bits with
  | case1 => exact absurd ht h.textOf_ne_nil
  | case2 c t hs ih =>
    by_cases hslash : c = '\\'
    · subst hslash
      exact .inl (Piece.dead_of_stray (.inl rfl) hs)
    · rcases bits with _ | ⟨d | n, bits⟩
      · cases ht
      · obtain ⟨rfl, rfl⟩ := List.cons.inj ht
        have hbits := h.char.2
        rw [Spot.next_within (Piece.other_ne_quote hs) hslash] at hbits
        exact Piece.doomed_of_split?_eq_none hs (ih hbits rfl)
      · obtain ⟨u, -, hblock⟩ := textOf_block n bits
        rw [hblock, List.cons.injEq] at ht
        exact absurd ht.1.symm (Piece.other_ne_quote hs)
  | case3 c t chain rest hs ih =>
    obtain ⟨o, rest', ho, rfl, -⟩ := Chain.split?_eq_some hs
    rw [← ht] at ho
    refine Piece.doomed_of_split? hs ?_
    rcases Amiss.joined rest' (h.amiss_operand ho) with ⟨bits', htext, h'⟩ | ⟨u, hu⟩ | hnil
    · exact .inr (ih h' htext.symm)
    · rw [hu]
      exact .inr (.inl (Piece.dead_underscore u))
    · exact .inl hnil

end JsonTemplate
