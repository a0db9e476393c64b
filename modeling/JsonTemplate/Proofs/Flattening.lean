import JsonTemplate.Proofs.Numerics
import JsonTemplate.Proofs.Parts

/-!
# Flattening trees

The extraction of blocks takes the repeated arrays out of the text of a tree, the inner ones before
those around them, and leaves a placeholder for each (`extractFrom_text`). The brackets of a tree
are balanced, so that the bracket an array is matched with is its own.
-/

namespace JsonTemplate

open Text

namespace RepeatBlock

/-! ## Brackets -/

/-- Seen from its end, the text opens as many brackets as it closes, and none too early. -/
def Balanced (t : List Char) : Prop :=
  ∀ (depth : Nat) (taken before : List Char), 0 < depth →
    splitBracket? depth taken (t.reverse ++ before) = splitBracket? depth (t ++ taken) before

theorem balanced_nil : Balanced [] :=
  fun _ _ _ _ => rfl

theorem Balanced.append {s t : List Char} (hs : Balanced s) (ht : Balanced t) :
    Balanced (s ++ t) := by
  intro depth taken before hd
  rw [List.reverse_append, List.append_assoc, ht _ _ _ hd, hs _ _ _ hd, List.append_assoc]

theorem balanced_singleton {c : Char} (hopen : c ≠ '[') (hclose : c ≠ ']') : Balanced [c] := by
  intro depth taken before _
  simp [splitBracket?, hopen, hclose]

theorem balanced_of_notMem {t : List Char} (hopen : '[' ∉ t) (hclose : ']' ∉ t) :
    Balanced t := by
  induction t with
  | nil => exact balanced_nil
  | cons c t ih =>
    rw [List.mem_cons, not_or] at hopen hclose
    exact (balanced_singleton (Ne.symm hopen.1) (Ne.symm hclose.1)).append (ih hopen.2 hclose.2)

theorem Balanced.brackets {t : List Char} (h : Balanced t) : Balanced ('[' :: (t ++ [']'])) := by
  intro depth taken before hd
  have hdeep : ¬ depth + 1 ≤ 1 := by omega
  simp [splitBracket?, h _ _ _ (Nat.succ_pos depth), hdeep]

theorem splitArray?_balanced {t : List Char} (h : Balanced t) (space : Blanks)
    (before : List Char) :
    splitArray? ((space : List Char).reverse ++ (('[' :: (t ++ [']'])).reverse ++ before))
      = some ('[' :: (t ++ [']']), before) := by
  have hspace : ∀ c ∈ (space : List Char).reverse, isAsciiBlank c = true := fun c hc =>
    isAsciiBlank_of_isJsonBlank (space.2 c (List.mem_reverse.1 hc))
  have hstop : isAsciiBlank ']' = false := rfl
  rw [splitArray?, List.dropWhile_append_of_pos hspace]
  simp [hstop, h _ _ _ Nat.one_pos, splitBracket?]

end RepeatBlock

open RepeatBlock

/-! ## Leaves -/

namespace Blanks

theorem notMem (b : Blanks) {c : Char} (hc : isJsonBlank c = false) : c ∉ (b : List Char) := by
  intro hm
  rw [b.2 c hm] at hc
  cases hc

theorem balanced (b : Blanks) : Balanced b :=
  balanced_of_notMem (b.notMem rfl) (b.notMem rfl)

end Blanks

theorem Quote.notMem_text (q : Quote) {c : Char} (hc : c ∈ ['@', '[', ']']) : c ∉ q.text := by
  have hquote : c ≠ '"' := by
    rintro rfl
    revert hc
    decide
  simp [Literal.text, hquote, q.plain c hc]

theorem Token.IsName.notMem {t : List Char} (h : Token.IsName t) {c : Char}
    (hc : Token.isNameChar c = false) : c ∉ t := by
  intro hm
  rw [h.isNameChar c hm] at hc
  cases hc

namespace Mention

/-- The text of a directive after its sign. -/
def tail (m : Mention) : List Char :=
  m.name ++ (Token.methodText m.method ++ Token.argumentsText m.arguments)

theorem text_eq (m : Mention) : m.text = '@' :: m.tail := by
  simp [Token.text, tail]

theorem notMem_tail (m : Mention) {c : Char} (hc : c ∈ ['@', '[', ']']) : c ∉ m.tail := by
  have hname : Token.isNameChar c = false ∧ c ≠ '.' ∧ c ≠ '(' ∧ c ≠ ')' := by
    simp only [List.mem_cons, List.not_mem_nil, or_false] at hc
    rcases hc with rfl | rfl | rfl <;> decide
  obtain ⟨hname, hpoint, hopen, hclose⟩ := hname
  have hplain : ∀ a ∈ m.arguments, c ∉ a := fun a ha =>
    m.plain a ha c (List.mem_append_left ['"', '('] hc)
  rw [tail, List.mem_append, List.mem_append, not_or, not_or]
  refine ⟨m.wellFormed.name.notMem hname, ?_, ?_⟩
  · cases hm : m.method with
    | none => simp [Token.methodText]
    | some method => simp [Token.methodText, hpoint, (m.wellFormed.method method hm).notMem hname]
  · cases ha : m.arguments with
    | none => simp [Token.argumentsText]
    | some a => simp [Token.argumentsText, hopen, hclose, hplain a ha]

/-- A directive is no repeat mark. -/
theorem splitMark?_text (m : Mention) {rest : List Char} (h : Token.Stops rest) :
    splitMark? (m.text ++ rest) = none := by
  cases hs : splitMark? (m.text ++ rest) with
  | none => rfl
  | some r =>
    obtain ⟨ds, rest'⟩ := r
    obtain ⟨heq, -, -⟩ := splitMark?_eq_some_iff.1 hs
    have hname : m.name ++ (Token.methodText m.method ++ (Token.argumentsText m.arguments ++ rest))
        = "repeat".toList ++ '(' :: (ds ++ ')' :: rest') := by
      simpa [m.text_eq, tail, mark, markStart_eq] using heq
    have h₁ := Token.splitName?_isName_append m.wellFormed.name
      (Token.head?_methodText_append m.method fun c hc =>
        (Token.head?_argumentsText_append m.arguments (fun c hc => ⟨(h c hc).1, (h c hc).2.1⟩) c
          hc).1)
    have h₂ : Token.splitName? ("repeat".toList ++ '(' :: (ds ++ ')' :: rest'))
        = some ("repeat".toList, '(' :: (ds ++ ')' :: rest')) :=
      Token.splitName?_isName_append
        ⟨'r', "epeat".toList, rfl, rfl, List.all_eq_true.1 (by decide)⟩ fun c hc => by cases hc; rfl
    rw [hname, h₂] at h₁
    obtain ⟨hrepeat, hrest⟩ := Prod.mk.inj (Option.some.inj h₁)
    cases hm : m.method with
    | none => exact absurd ⟨hrepeat.symm, hm⟩ m.notRepeat
    | some method =>
      rw [hm] at hrest
      cases hrest

theorem marklessBefore (m : Mention) {rest : List Char} (h : Token.Stops rest) :
    MarklessBefore m.text rest := by
  have hsplit := m.splitMark?_text h
  rw [m.text_eq] at hsplit ⊢
  exact ⟨hsplit, marklessBefore_of_notMem rest (m.notMem_tail (by decide))⟩

end Mention

namespace Part

theorem marklessBefore (part : Part) {rest : List Char} (h : Token.Stops rest) :
    MarklessBefore part.text rest := by
  cases part with
  | quote q => exact marklessBefore_of_notMem rest (q.notMem_text (by decide))
  | mention m => exact m.marklessBefore h

theorem balanced (part : Part) : Balanced part.text := by
  cases part with
  | quote q => exact balanced_of_notMem (q.notMem_text (by decide)) (q.notMem_text (by decide))
  | mention m =>
    rw [show (Part.mention m).text = '@' :: m.tail from m.text_eq]
    exact (balanced_singleton (by decide) (by decide)).append
      (balanced_of_notMem (m.notMem_tail (by decide)) (m.notMem_tail (by decide)))

end Part

namespace Concatenation

theorem marklessBefore_links {rest : List Char} (h : Token.Stops rest) : ∀ links : List Link,
    MarklessBefore (links.flatMap Link.text) rest
  | [] => trivial
  | l :: links => by
    have hjoin : '@' ∉ l.before ++ '+' :: (l.after : List Char) := by
      simp [l.before.notMem (c := '@') rfl, l.after.notMem (c := '@') rfl]
    have hl : (l :: links).flatMap Link.text = (l.before ++ '+' :: (l.after : List Char))
        ++ (l.part.text ++ links.flatMap Link.text) := by
      simp [Link.text]
    rw [hl, marklessBefore_append, marklessBefore_append (s := l.part.text)]
    exact ⟨marklessBefore_of_notMem _ hjoin, l.part.marklessBefore (stops_links h links),
      marklessBefore_links h links⟩

theorem marklessBefore (c : Concatenation) {rest : List Char} (h : Token.Stops rest) :
    MarklessBefore c.text rest := by
  rw [text, marklessBefore_append]
  exact ⟨c.first.marklessBefore (stops_links h c.links), marklessBefore_links h c.links⟩

theorem balanced_links : ∀ links : List Link, Balanced (links.flatMap Link.text)
  | [] => balanced_nil
  | l :: links =>
    (l.before.balanced.append ((balanced_singleton (by decide) (by decide)).append
      (l.after.balanced.append l.part.balanced))).append (balanced_links links)

theorem balanced (c : Concatenation) : Balanced c.text :=
  c.first.balanced.append (balanced_links c.links)

end Concatenation

/-! ## Trees -/

/-- The literal that stands for a block. -/
def Literal.ofBlock (n : Nat) : Literal where
  body := (Placeholder.ofBlock (Placeholder.blockName n)).toList
  value := Placeholder.ofBlock (Placeholder.blockName n)
  isRead := by
    have hquoted := Json.quoted_of_isNameChar fun c hc =>
      Placeholder.isNameChar_of_mem_ofBlock (n := n) hc
    have hread := Json.read_quoted (Placeholder.ofBlock (Placeholder.blockName n)).toList
    rwa [hquoted, String.ofList_toList] at hread

mutual

/-- The text of a tree with a placeholder for each repeated array, and the table with these
recorded. -/
def Tree.flatten : Tree → Placeholders → List Char × Placeholders
  | .scalar s, p => (s.text, p)
  | .quote q, p => (q.text, p)
  | .mention m, p => (m.text, p)
  | .concatenation c, p => (c.text, p)
  | .array gap es, p => ('[' :: (gap ++ (es.flatten p).1 ++ [']']), (es.flatten p).2)
  | .object gap ms, p => ('\x7b' :: (gap ++ (ms.flatten p).1 ++ ['\x7d']), (ms.flatten p).2)
  | .repeated gap es _ mark, p =>
    ((Literal.ofBlock (es.flatten p).2.nextBlock).text,
      ((es.flatten p).2.recordBlock
        ⟨String.ofList ('[' :: (gap ++ (es.flatten p).1 ++ [']'])), mark.count⟩).2)

def Elements.flatten : Elements → Placeholders → List Char × Placeholders
  | .nil, p => ([], p)
  | .cons before t after rest, p =>
    (before ++ ((t.flatten p).1 ++ (after ++ (rest.comma ++ (rest.flatten (t.flatten p).2).1))),
      (rest.flatten (t.flatten p).2).2)

def Members.flatten : Members → Placeholders → List Char × Placeholders
  | .nil, p => ([], p)
  | .cons label t after rest, p =>
    (label.text ++ ((t.flatten p).1 ++ (after ++ (rest.comma ++ (rest.flatten (t.flatten p).2).1))),
      (rest.flatten (t.flatten p).2).2)

end

namespace Elements

theorem ends_rest (after : Blanks) (es : Elements) {rest : List Char} (h : Ends rest) :
    Ends (after ++ (es.comma ++ (es.text ++ rest))) := by
  cases es with
  | nil => exact h.blanks after
  | cons before t after' es => exact (ends_cons (by decide) _).blanks after

theorem comma_eq (es : Elements) : es.comma = [] ∨ es.comma = [','] := by
  cases es with
  | nil => exact .inl rfl
  | cons => exact .inr rfl

end Elements

namespace Members

theorem ends_rest (after : Blanks) (ms : Members) {rest : List Char} (h : Ends rest) :
    Ends (after ++ (ms.comma ++ (ms.text ++ rest))) := by
  cases ms with
  | nil => exact h.blanks after
  | cons label t after' ms => exact (ends_cons (by decide) _).blanks after

theorem comma_eq (ms : Members) : ms.comma = [] ∨ ms.comma = [','] := by
  cases ms with
  | nil => exact .inl rfl
  | cons => exact .inr rfl

end Members

theorem Label.notMem_text (l : Label) {c : Char} (hc : c ∈ ['@', '[', ']']) : c ∉ l.text := by
  have hblank : isJsonBlank c = false ∧ c ≠ ':' := by
    simp only [List.mem_cons, List.not_mem_nil, or_false] at hc
    rcases hc with rfl | rfl | rfl <;> decide
  simp [text, l.before.notMem hblank.1, l.key.notMem_text hc, l.beforeColon.notMem hblank.1,
    l.afterColon.notMem hblank.1, hblank.2]

theorem Label.balanced (l : Label) : Balanced l.text :=
  balanced_of_notMem (l.notMem_text (by decide)) (l.notMem_text (by decide))

theorem Literal.balanced_ofBlock (n : Nat) : Balanced (ofBlock n).text := by
  have h : ∀ c, Token.isNameChar c = false → c ≠ '"' → c ∉ (ofBlock n).text := by
    intro c hc hquote hm
    simp only [text, ofBlock, List.mem_cons, List.mem_append, List.not_mem_nil, or_false] at hm
    rcases hm with hm | hm | hm
    · exact hquote hm
    · rw [Placeholder.isNameChar_of_mem_ofBlock hm] at hc
      cases hc
    · exact hquote hm
  exact balanced_of_notMem (h _ rfl (by decide)) (h _ rfl (by decide))

theorem balanced_comma {comma : List Char} (h : comma = [] ∨ comma = [',']) : Balanced comma := by
  rcases h with rfl | rfl
  · exact balanced_nil
  · exact balanced_singleton (by decide) (by decide)

mutual

theorem Tree.balanced_flatten : ∀ (t : Tree) (p : Placeholders), Balanced (t.flatten p).1
  | .scalar s, _ => balanced_of_notMem (s.notMem_text (by decide)) (s.notMem_text (by decide))
  | .quote q, _ => (Part.quote q).balanced
  | .mention m, _ => (Part.mention m).balanced
  | .concatenation c, _ => c.balanced
  | .array gap es, p => (gap.balanced.append (es.balanced_flatten p)).brackets
  | .object gap ms, p =>
    (balanced_singleton (by decide) (by decide)).append
      ((gap.balanced.append (ms.balanced_flatten p)).append
        (balanced_singleton (by decide) (by decide)))
  | .repeated .., _ => Literal.balanced_ofBlock _

theorem Elements.balanced_flatten : ∀ (es : Elements) (p : Placeholders),
    Balanced (es.flatten p).1
  | .nil, _ => balanced_nil
  | .cons before t after rest, p =>
    before.balanced.append ((t.balanced_flatten p).append (after.balanced.append
      ((balanced_comma rest.comma_eq).append (rest.balanced_flatten _))))

theorem Members.balanced_flatten : ∀ (ms : Members) (p : Placeholders),
    Balanced (ms.flatten p).1
  | .nil, _ => balanced_nil
  | .cons label t after rest, p =>
    label.balanced.append ((t.balanced_flatten p).append (after.balanced.append
      ((balanced_comma rest.comma_eq).append (rest.balanced_flatten _))))

end

/-- At a mark the array before it is recorded. -/
theorem extractFrom_mark {before before' template : List Char}
    (ha : splitArray? before = some (template, before')) (m : Mark) (rest : List Char)
    (p : Placeholders) :
    extractFrom before (mark m.digits ++ rest) p
      = extractFrom ((Literal.ofBlock p.nextBlock).text.reverse ++ before') rest
        (p.recordBlock ⟨String.ofList template, m.count⟩).2 := by
  rw [extractFrom_of_splitMark? (splitMark?_mark m.isCount rest)]
  simp only [m.isCount, ha]
  simp [Literal.text, Literal.ofBlock, Placeholders.recordBlock]

theorem extractFrom_of_notMem {t : List Char} (h : '@' ∉ t) (before rest : List Char)
    (p : Placeholders) :
    extractFrom before (t ++ rest) p = extractFrom (t.reverse ++ before) rest p :=
  extractFrom_append p before (marklessBefore_of_notMem rest h)

theorem notMem_after {comma : List Char} (h : comma = [] ∨ comma = [',']) (after : Blanks) :
    '@' ∉ (after : List Char) ++ comma := by
  rcases h with rfl | rfl <;> simp [after.notMem (c := '@') rfl]

mutual

/-- Extraction passes over a tree and leaves its flattened text. -/
theorem Tree.extractFrom_text : ∀ (t : Tree) {rest : List Char}, Ends rest →
    ∀ (before : List Char) (p : Placeholders), extractFrom before (t.text ++ rest) p
      = extractFrom ((t.flatten p).1.reverse ++ before) rest (t.flatten p).2
  | .scalar s, rest, _, before, p =>
    extractFrom_of_notMem (s.notMem_text (by decide)) before rest p
  | .quote q, rest, h, before, p =>
    extractFrom_append p before ((Part.quote q).marklessBefore h.stops)
  | .mention m, rest, h, before, p =>
    extractFrom_append p before (m.marklessBefore h.stops)
  | .concatenation c, rest, h, before, p =>
    extractFrom_append p before (c.marklessBefore h.stops)
  | .array gap es, rest, _, before, p => by
    have hopen : '@' ∉ '[' :: (gap : List Char) := by simp [gap.notMem (c := '@') rfl]
    have htext : (Tree.array gap es).text ++ rest
        = ('[' :: (gap : List Char)) ++ (es.text ++ ([']'] ++ rest)) := by simp [Tree.text]
    have hends : Ends ([']'] ++ rest) := ends_cons (by decide) rest
    rw [htext, extractFrom_of_notMem hopen, es.extractFrom_text hends,
      extractFrom_of_notMem (by decide)]
    simp [Tree.flatten]
  | .object gap ms, rest, _, before, p => by
    have hopen : '@' ∉ '\x7b' :: (gap : List Char) := by simp [gap.notMem (c := '@') rfl]
    have htext : (Tree.object gap ms).text ++ rest
        = ('\x7b' :: (gap : List Char)) ++ (ms.text ++ (['\x7d'] ++ rest)) := by simp [Tree.text]
    have hends : Ends (['\x7d'] ++ rest) := ends_cons (by decide) rest
    rw [htext, extractFrom_of_notMem hopen, ms.extractFrom_text hends,
      extractFrom_of_notMem (by decide)]
    simp [Tree.flatten]
  | .repeated gap es space m, rest, _, before, p => by
    have hopen : '@' ∉ '[' :: (gap : List Char) := by simp [gap.notMem (c := '@') rfl]
    have hclose : '@' ∉ ']' :: (space : List Char) := by simp [space.notMem (c := '@') rfl]
    have htext : (Tree.repeated gap es space m).text ++ rest
        = ('[' :: (gap : List Char)) ++ (es.text ++ ((']' :: (space : List Char))
          ++ (mark m.digits ++ rest))) := by simp [Tree.text]
    have harray := splitArray?_balanced (gap.balanced.append (es.balanced_flatten p)) space before
    have hbefore : (']' :: (space : List Char)).reverse ++ ((es.flatten p).1.reverse
        ++ (('[' :: (gap : List Char)).reverse ++ before)) = (space : List Char).reverse
          ++ (('[' :: (gap ++ (es.flatten p).1 ++ [']'])).reverse ++ before) := by simp
    have hends : Ends ((']' :: (space : List Char)) ++ (mark m.digits ++ rest)) :=
      ends_cons (by decide) _
    rw [htext, extractFrom_of_notMem hopen, es.extractFrom_text hends,
      extractFrom_of_notMem hclose, hbefore, extractFrom_mark harray]
    rfl

theorem Elements.extractFrom_text : ∀ (es : Elements) {rest : List Char}, Ends rest →
    ∀ (before : List Char) (p : Placeholders), extractFrom before (es.text ++ rest) p
      = extractFrom ((es.flatten p).1.reverse ++ before) rest (es.flatten p).2
  | .nil, _, _, _, _ => rfl
  | .cons gap t after es, rest, h, before, p => by
    have htext : (Elements.cons gap t after es).text ++ rest
        = (gap : List Char) ++ (t.text ++ ((after ++ es.comma) ++ (es.text ++ rest))) := by
      simp [Elements.text]
    have hends := es.ends_rest after h
    rw [← List.append_assoc] at hends
    rw [htext, extractFrom_of_notMem (gap.notMem rfl), t.extractFrom_text hends,
      extractFrom_of_notMem (notMem_after es.comma_eq after), es.extractFrom_text h]
    simp [Elements.flatten]

theorem Members.extractFrom_text : ∀ (ms : Members) {rest : List Char}, Ends rest →
    ∀ (before : List Char) (p : Placeholders), extractFrom before (ms.text ++ rest) p
      = extractFrom ((ms.flatten p).1.reverse ++ before) rest (ms.flatten p).2
  | .nil, _, _, _, _ => rfl
  | .cons label t after ms, rest, h, before, p => by
    have htext : (Members.cons label t after ms).text ++ rest
        = label.text ++ (t.text ++ ((after ++ ms.comma) ++ (ms.text ++ rest))) := by
      simp [Members.text]
    have hends := ms.ends_rest after h
    rw [← List.append_assoc] at hends
    rw [htext, extractFrom_of_notMem (label.notMem_text (by decide)), t.extractFrom_text hends,
      extractFrom_of_notMem (notMem_after ms.comma_eq after), ms.extractFrom_text h]
    simp [Members.flatten]

end

end JsonTemplate
