import JsonTemplate.Proofs.Flattening
import JsonTemplate.Proofs.Passages

/-!
# Reading flattened trees

The flattened text of a tree, as plain JSON with its expressions put back, is read as the tree's own
value (`readTemplate_flatten`): a directive or a concatenation is its text, and a repeated array
the placeholder of its block.
-/

namespace JsonTemplate

open Text Json Json.ReaderState Piece

mutual

/-- The value of a tree with its directives and concatenations unresolved, and its blocks numbered
on from those of a table. -/
def Tree.value : Tree → Placeholders → Json
  | .scalar s, _ => s.value
  | .quote q, _ => .string q.value
  | .mention m, _ => .string (String.ofList m.text)
  | .concatenation c, _ => .string (String.ofList c.text)
  | .array _ es, p => .array (es.value p)
  | .object _ ms, p => .object (ms.value p)
  | .repeated _ es _ _, p => .string (Literal.ofBlock (es.flatten p).2.nextBlock).value

def Elements.value : Elements → Placeholders → List Json
  | .nil, _ => []
  | .cons _ t _ rest, p => t.value p :: rest.value (t.flatten p).2

def Members.value : Members → Placeholders → Fields
  | .nil, _ => []
  | .cons label t _ rest, p => (label.key.value, t.value p) :: rest.value (t.flatten p).2

end

/-- Every placeholder of the table is mapped to its expression, and what is none to itself. -/
structure Placeholders.Restores (p : Placeholders) (f : String → String) : Prop where
  expression : ∀ {x e}, p.expression? x = some e → f x = e
  other : ∀ {x}, (∀ n, x ≠ Placeholder.ofExpression n) → f x = x

theorem Placeholders.WellFormed.restores_textOf {p : Placeholders} (hp : p.WellFormed) :
    p.Restores p.textOf where
  expression h := by rw [textOf, h, Option.getD_some]
  other {x} hx := by
    cases h : p.expression? x with
    | none => rw [textOf, h, Option.getD_none]
    | some e =>
      obtain ⟨n, hn⟩ := hp.ofExpression_of_expression? (by rw [h]; rfl)
      exact absurd hn (hx n)

/-- Reading past `t` gives something that `k` says what the reader makes of, and that is `w` once
its expressions are put back. -/
def Reads {α : Type} (t rest : List Char) (p : Placeholders) (s : ReaderState)
    (k : α → ReaderState) (replace : (String → String) → α → α) (w : α) : Prop :=
  ∃ v p', Passes t rest p s p' (k v) ∧ p'.WellFormed
    ∧ ∀ f, p'.Restores f → p.Restores f ∧ replace f v = w

section Reading

variable {α β : Type} {t u rest : List Char} {p : Placeholders} {s s₁ : ReaderState}
  {k : α → ReaderState} {replace : (String → String) → α → α} {w : α}

theorem Passes.reads (h : Passes t (u ++ rest) p s p s₁) (h' : Reads u rest p s₁ k replace w) :
    Reads (t ++ u) rest p s k replace w := by
  obtain ⟨v, p', hv, hp', hw⟩ := h'
  exact ⟨v, p', h.append hv, hp', hw⟩

theorem Reads.map (h : Reads t rest p s k replace w) {k' : β → ReaderState}
    {replace' : (String → String) → β → β} (g : α → β) (hk : ∀ v, k v = k' (g v))
    (hg : ∀ f v, replace' f (g v) = g (replace f v)) :
    Reads t rest p s k' replace' (g w) := by
  obtain ⟨v, p', hv, hp', hw⟩ := h
  refine ⟨g v, p', hk v ▸ hv, hp', fun f hf => ?_⟩
  obtain ⟨hrestores, hreplace⟩ := hw f hf
  exact ⟨hrestores, by rw [hg, hreplace]⟩

/-- A part that leaves the table alone. -/
theorem reads_of_passes (k : α → ReaderState) {w : α} (h : Passes t rest p s p (k w))
    (hp : p.WellFormed) (hw : ∀ f, p.Restores f → replace f w = w) :
    Reads t rest p s k replace w :=
  ⟨w, p, h, hp, fun f hf => ⟨hf, hw f hf⟩⟩

end Reading

theorem Concatenation.reads (c : Concatenation) {rest : List Char} (hrest : Ends rest)
    {p : Placeholders} (hp : p.WellFormed) {s : ReaderState} {frames : List Frame}
    (hs : s.openString? = some (frames, .value)) :
    Reads c.text rest p s (deliver · frames) replaceStrings (.string (String.ofList c.text)) := by
  have hpast := c.passes hrest p (takeString?_value hs _)
  have htable : (c.chain.toPlain p).2 = (p.recordExpression c.text).2 :=
    Chain.toPlain_of_joined c.one_lt_operands c.any_isToken p
  have hwell := hp.toPlain (c.split?_text ends_nil)
  refine ⟨_, _, hpast, hwell, fun f hf => ⟨⟨fun hx => hf.expression ?_, hf.other⟩, ?_⟩⟩
  · exact Chain.expression?_toPlain hx
  · rw [htable] at hf
    rw [replaceStrings, hf.expression (Placeholders.expression?_recordExpression hp c.text),
      c.trim_text]

/-! ## Containers -/

theorem Elements.ends_flatten (after : Blanks) (es : Elements) (q : Placeholders)
    (rest : List Char) :
    Ends ((after ++ (es.comma ++ ((es.flatten q).1 ++ [']']))) ++ rest) := by
  rw [List.append_assoc]
  refine Ends.blanks ?_ after
  cases es with
  | nil => exact ends_cons (by decide) rest
  | cons => exact ends_cons (by decide) _

theorem Members.ends_flatten (after : Blanks) (ms : Members) (q : Placeholders)
    (rest : List Char) :
    Ends ((after ++ (ms.comma ++ ((ms.flatten q).1 ++ ['\x7d']))) ++ rest) := by
  rw [List.append_assoc]
  refine Ends.blanks ?_ after
  cases ms with
  | nil => exact ends_cons (by decide) rest
  | cons => exact ends_cons (by decide) _

/-- Elements are due after those that are done, or the end of their array if there are none. -/
structure Elements.Due (es : Elements) (done : List Json) (frames : List Frame)
    (s : ReaderState) : Prop where
  openString : es ≠ .nil → s.openString? = some (.array done :: frames, .value)
  close : es = .nil → s.step ']' = .ok (deliver (.array done.reverse) frames)

structure Members.Due (ms : Members) (done : Fields) (frames : List Frame)
    (s : ReaderState) : Prop where
  openString : ms ≠ .nil → s.openString? = some (frames, .key done)
  close : ms = .nil → s.step '\x7d' = .ok (deliver (.object done) frames)

theorem Elements.due_firstItem (es : Elements) (frames : List Frame) :
    es.Due [] frames ⟨frames, .firstItem⟩ :=
  ⟨fun _ => rfl, fun _ => rfl⟩

theorem Members.due_firstKey (ms : Members) (frames : List Frame) :
    ms.Due [] frames ⟨frames, .firstKey⟩ :=
  ⟨fun _ => rfl, fun _ => rfl⟩

theorem Elements.passes_comma (es : Elements) (done : List Json) (frames : List Frame)
    (rest : List Char) (p : Placeholders) :
    ∃ s, es.Due done frames s ∧ Passes es.comma rest p ⟨frames, .afterItem done⟩ p s := by
  cases es with
  | nil => exact ⟨_, ⟨fun h => absurd rfl h, fun _ => rfl⟩, .refl rest p _⟩
  | cons =>
    exact ⟨_, ⟨fun _ => rfl, fun h => nomatch h⟩, passes_char (by decide) (by decide) rfl rest p⟩

theorem Members.passes_comma (ms : Members) (done : Fields) (frames : List Frame)
    (rest : List Char) (p : Placeholders) :
    ∃ s, ms.Due done frames s ∧ Passes ms.comma rest p ⟨frames, .afterField done⟩ p s := by
  cases ms with
  | nil => exact ⟨_, ⟨fun h => absurd rfl h, fun _ => rfl⟩, .refl rest p _⟩
  | cons =>
    exact ⟨_, ⟨fun _ => rfl, fun h => nomatch h⟩, passes_char (by decide) (by decide) rfl rest p⟩

theorem Label.passes (l : Label) {s : ReaderState} {done : Fields} {frames : List Frame}
    (hs : s.openString? = some (frames, .key done)) (rest : List Char) (p : Placeholders) :
    Passes l.text rest p s p ⟨.object done l.key.value :: frames, .value⟩ := by
  have htake : s.takeString? l.key.value = some ⟨frames, .colon done l.key.value⟩ := by
    simp [takeString?, hs, endString]
  have hcolon : step ⟨frames, .colon done l.key.value⟩ ':'
      = .ok ⟨.object done l.key.value :: frames, .value⟩ := rfl
  have hjoin : ∀ u, splitJoin? ((l.beforeColon : List Char) ++ ':' :: u) = none := by
    intro u
    refine splitJoin?_eq_none fun h => ?_
    rw [skipBlanks_append l.beforeColon.2, skipBlanks_cons rfl] at h
    cases h
  refine (passes_blanks (idle_of_openString? hs) l.before _ p).append ?_
  refine (l.key.passes l.key.ne_ofExpression ?_ htake p).append ?_
  · rw [List.append_assoc]
    exact hjoin _
  refine (passes_blanks (idle_colon frames done l.key.value) l.beforeColon _ p).append ?_
  refine Passes.append (t := [':']) (passes_char (by decide) (by decide) hcolon _ p) ?_
  exact passes_blanks (idle_of_openString? rfl) l.afterColon rest p

theorem Json.insert_of_notMem {key : String} {v : Json} : ∀ {fields : Fields},
    key ∉ fields.map Prod.fst → Fields.insert key v fields = fields ++ [(key, v)]
  | [], _ => rfl
  | (k, w) :: fields, h => by
    rw [List.map_cons, List.mem_cons, not_or] at h
    rw [Fields.insert, if_neg (Ne.symm h.1), insert_of_notMem h.2]
    rfl

mutual

/-- Where a value is due, the flattened text of a tree is read as the tree's value. -/
theorem Tree.reads_flatten : ∀ (t : Tree) (q : Placeholders) {rest : List Char}
    {p : Placeholders} {s : ReaderState} {frames : List Frame}, Ends rest → p.WellFormed →
    s.openString? = some (frames, .value) → frames.length + t.nesting ≤ depthLimit →
    t.DistinctKeys →
      Reads (t.flatten q).1 rest p s (deliver · frames) replaceStrings (t.value q)
  | .scalar sc, _, rest, p, _, frames, hrest, hp, hs, _, _ => by
    refine reads_of_passes (deliver · frames) (sc.passes hs hrest p) hp fun f _ => ?_
    rcases sc with _ | _ | _ <;> rfl
  | .quote k, _, rest, p, _, frames, hrest, hp, hs, _, _ => by
    refine reads_of_passes (deliver · frames) (k.passes k.ne_ofExpression
      hrest.splitJoin?_eq_none (takeString?_value hs _) p) hp fun f hf => ?_
    rw [Tree.value, replaceStrings, hf.other k.ne_ofExpression]
  | .mention m, _, rest, p, _, frames, hrest, hp, hs, _, _ => by
    refine reads_of_passes (deliver · frames) (m.passes hrest (takeString?_value hs _) p) hp
      fun f hf => ?_
    rw [Tree.value, replaceStrings, hf.other (Placeholder.ofList_text_ne_ofExpression m.toToken)]
  | .concatenation c, _, _, _, _, _, hrest, hp, hs, _, _ => c.reads hrest hp hs
  | .array gap es, q, rest, p, s, frames, _, hp, hs, hdepth, hkeys => by
    have hdepth : frames.length + 1 + es.nesting ≤ depthLimit := by
      rw [Tree.nesting] at hdepth
      omega
    have hopen : s.step '[' = .ok ⟨frames, .firstItem⟩ := by
      have hlimit : ¬ depthLimit ≤ frames.length := by omega
      rw [step_of_openString? hs rfl (by decide)]
      simp [startValue, openContainer, hlimit]
    have helements : Reads ((es.flatten q).1 ++ [']']) rest p ⟨frames, .firstItem⟩
        (deliver · frames) replaceStrings (.array (es.value q)) :=
      (es.reads_flatten q rest hp (es.due_firstItem frames) hdepth hkeys).map Json.array
        (fun _ => rfl) fun _ _ => rfl
    have hgap := (passes_blanks (idle_of_openString? rfl) gap _ p).reads helements
    have htext : (Tree.flatten (.array gap es) q).1
        = ['['] ++ ((gap : List Char) ++ ((es.flatten q).1 ++ [']'])) := by simp [Tree.flatten]
    rw [htext]
    exact (passes_char (by decide) (by decide) hopen _ p).reads hgap
  | .object gap ms, q, rest, p, s, frames, _, hp, hs, hdepth, hkeys => by
    have hdepth : frames.length + 1 + ms.nesting ≤ depthLimit := by
      rw [Tree.nesting] at hdepth
      omega
    have hopen : s.step '\x7b' = .ok ⟨frames, .firstKey⟩ := by
      have hlimit : ¬ depthLimit ≤ frames.length := by omega
      rw [step_of_openString? hs rfl (by decide)]
      simp [startValue, openContainer, hlimit]
    have hmembers : Reads ((ms.flatten q).1 ++ ['\x7d']) rest p ⟨frames, .firstKey⟩
        (deliver · frames) replaceStrings (.object (ms.value q)) :=
      (ms.reads_flatten q rest hp (ms.due_firstKey frames) hdepth (by simpa using hkeys.1)
        hkeys.2).map Json.object (fun _ => rfl) fun _ _ => rfl
    have hgap := (passes_blanks (idle_of_openString? rfl) gap _ p).reads hmembers
    have htext : (Tree.flatten (.object gap ms) q).1
        = ['\x7b'] ++ ((gap : List Char) ++ ((ms.flatten q).1 ++ ['\x7d'])) := by
      simp [Tree.flatten]
    rw [htext]
    exact (passes_char (by decide) (by decide) hopen _ p).reads hgap
  | .repeated gap es space m, q, rest, p, _, frames, hrest, hp, hs, _, _ => by
    have hblock : ∀ n, (Literal.ofBlock (es.flatten q).2.nextBlock).value
        ≠ Placeholder.ofExpression n := Placeholder.ofBlock_ne_ofExpression _
    refine reads_of_passes (deliver · frames) ((Literal.ofBlock _).passes hblock
      hrest.splitJoin?_eq_none (takeString?_value hs _) p) hp fun f hf => ?_
    rw [Tree.value, replaceStrings, hf.other hblock]

theorem Elements.reads_flatten : ∀ (es : Elements) (q : Placeholders) (rest : List Char)
    {p : Placeholders} {s : ReaderState} {done : List Json} {frames : List Frame},
    p.WellFormed → es.Due done frames s → frames.length + 1 + es.nesting ≤ depthLimit →
    es.DistinctKeys →
      Reads ((es.flatten q).1 ++ [']']) rest p s
        (fun vs => deliver (.array (done.reverse ++ vs)) frames) replaceItems (es.value q)
  | .nil, q, rest, p, s, done, frames, hp, hs, _, _ => by
    have hclose := hs.close rfl
    rw [← List.append_nil done.reverse] at hclose
    exact reads_of_passes (fun vs => deliver (.array (done.reverse ++ vs)) frames)
      (passes_char (by decide) (by decide) hclose rest p) hp fun _ _ => rfl
  | .cons gap t after es, q, rest, p, s, done, frames, hp, hs, hdepth, hkeys => by
    have hopen := hs.openString nofun
    rw [Elements.nesting] at hdepth
    obtain ⟨v, p₁, hv, hp₁, hw⟩ := t.reads_flatten q (es.ends_flatten after (t.flatten q).2 rest)
      hp hopen (by rw [List.length_cons]; omega) hkeys.1
    obtain ⟨s', hdue, hcomma⟩ := es.passes_comma (v :: done) frames
      (((es.flatten (t.flatten q).2).1 ++ [']']) ++ rest) p₁
    obtain ⟨vs, p₂, hvs, hp₂, hws⟩ := es.reads_flatten (t.flatten q).2 rest hp₁ hdue
      (by omega) hkeys.2
    have hgap := passes_blanks (idle_of_openString? hopen) gap
    have hafter := passes_blanks (idle_deliver v (.array done :: frames)) after
    refine ⟨v :: vs, p₂, ?_, hp₂, fun f hf => ?_⟩
    · have htext : (Elements.flatten (.cons gap t after es) q).1 ++ [']']
          = gap ++ ((t.flatten q).1 ++ (after ++ (es.comma
            ++ ((es.flatten (t.flatten q).2).1 ++ [']'])))) := by simp [Elements.flatten]
      have hdone : done.reverse ++ v :: vs = (v :: done).reverse ++ vs := by simp
      dsimp only
      rw [htext, hdone]
      exact (hgap _ p).append (hv.append ((hafter _ p₁).append (hcomma.append hvs)))
    · obtain ⟨hf₁, hws⟩ := hws f hf
      obtain ⟨hf₀, hw⟩ := hw f hf₁
      exact ⟨hf₀, by rw [replaceItems, hw, hws]; rfl⟩

theorem Members.reads_flatten : ∀ (ms : Members) (q : Placeholders) (rest : List Char)
    {p : Placeholders} {s : ReaderState} {done : Fields} {frames : List Frame},
    p.WellFormed → ms.Due done frames s → frames.length + 1 + ms.nesting ≤ depthLimit →
    (done.map Prod.fst ++ ms.keys).Nodup → ms.DistinctKeys →
      Reads ((ms.flatten q).1 ++ ['\x7d']) rest p s
        (fun fs => deliver (.object (done ++ fs)) frames) replaceFields (ms.value q)
  | .nil, q, rest, p, s, done, frames, hp, hs, _, _, _ => by
    have hclose := hs.close rfl
    rw [← List.append_nil done] at hclose
    exact reads_of_passes (fun fs => deliver (.object (done ++ fs)) frames)
      (passes_char (by decide) (by decide) hclose rest p) hp fun _ _ => rfl
  | .cons label t after ms, q, rest, p, s, done, frames, hp, hs, hdepth, hnodup, hkeys => by
    have hopen := hs.openString nofun
    rw [Members.nesting] at hdepth
    have hvalue : openString? ⟨.object done label.key.value :: frames, .value⟩
        = some (.object done label.key.value :: frames, .value) := rfl
    obtain ⟨v, p₁, hv, hp₁, hw⟩ := t.reads_flatten q (ms.ends_flatten after (t.flatten q).2 rest)
      hp hvalue (by rw [List.length_cons]; omega) hkeys.1
    have hnew : label.key.value ∉ done.map Prod.fst := by
      intro hm
      have := (List.nodup_append.1 hnodup).2.2 _ hm _ List.mem_cons_self
      exact this rfl
    obtain ⟨s', hdue, hcomma⟩ := ms.passes_comma (done ++ [(label.key.value, v)]) frames
      (((ms.flatten (t.flatten q).2).1 ++ ['\x7d']) ++ rest) p₁
    obtain ⟨fs, p₂, hfs, hp₂, hws⟩ := ms.reads_flatten (t.flatten q).2 rest hp₁ hdue
      (by omega) (by simpa [Members.keys] using hnodup) hkeys.2
    have hlabel := label.passes hopen
    have hafter := passes_blanks (idle_deliver v (.object done label.key.value :: frames)) after
    refine ⟨(label.key.value, v) :: fs, p₂, ?_, hp₂, fun f hf => ?_⟩
    · have htext : (Members.flatten (.cons label t after ms) q).1 ++ ['\x7d']
          = label.text ++ ((t.flatten q).1 ++ (after ++ (ms.comma
            ++ ((ms.flatten (t.flatten q).2).1 ++ ['\x7d'])))) := by simp [Members.flatten]
      have hdone : done ++ (label.key.value, v) :: fs = (done ++ [(label.key.value, v)]) ++ fs := by
        simp
      rw [← Json.insert_of_notMem hnew] at hcomma
      dsimp only
      rw [htext, hdone]
      exact (hlabel _ p).append (hv.append ((hafter _ p₁).append (hcomma.append hfs)))
    · obtain ⟨hf₁, hws⟩ := hws f hf
      obtain ⟨hf₀, hw⟩ := hw f hf₁
      exact ⟨hf₀, by rw [replaceFields, hw, hws]; rfl⟩

end

/-! ## Whole templates -/

namespace Tree

variable {t : Tree} {p : Placeholders}

theorem extract_text (t : Tree) (p : Placeholders) :
    RepeatBlock.extract t.text p = t.flatten p := by
  have h := t.extractFrom_text ends_nil [] p
  rw [List.append_nil, List.append_nil, RepeatBlock.extractFrom, List.reverse_reverse] at h
  exact h

/-- A text with the flattened tree left in it is read as the tree's value. -/
theorem readTemplate_of_extract (hp : p.WellFormed) (hdepth : t.nesting ≤ depthLimit)
    (hkeys : t.DistinctKeys) {text : List Char} {q : Placeholders}
    (hextract : (RepeatBlock.extract text p).1 = (t.flatten q).1) :
    (p.readTemplate text).1 = .ok (t.value q) := by
  have hp₁ := hp.extract text
  obtain ⟨p₁, hp₁eq⟩ : ∃ p₁, (RepeatBlock.extract text p).2 = p₁ := ⟨_, rfl⟩
  rw [hp₁eq] at hp₁
  have hopen : initial.openString? = some ([], .value) := rfl
  obtain ⟨v, p₂, hpast, hp₂, hw⟩ := t.reads_flatten q ends_nil hp₁ hopen (by simpa) hkeys
  have hread : Json.read (quoteChains (t.flatten q).1 p₁).1 = .ok v := by
    have hreading := hpast.reading
    rw [List.append_nil] at hreading
    rw [read_eq_ok_iff, ← toOption_read, read_quoteChains, hreading, Piece.cut, Piece.readAll?]
    rfl
  have htable : (quoteChains (t.flatten q).1 p₁).2 = p₂ := by
    have htable := hpast.table
    rw [List.append_nil] at htable
    rw [quoteChains_eq, htable, Piece.cut, Piece.quoteAll]
  have hfresh : Fresh (cut (t.flatten q).1) := by
    have hfresh := hpast.fresh
    rw [List.append_nil] at hfresh
    refine hfresh fun chain hc => ?_
    rw [Piece.cut] at hc
    cases hc
  have hreinstate := reinstate_read hp₁ hfresh hread
  rw [htable, (hw _ hp₂.restores_textOf).2] at hreinstate
  rw [Placeholders.readTemplate, toPlainJson]
  simp only [hextract, hp₁eq, hread, htable, hreinstate]

/-- A tree that is written out is read as its value, with its blocks recorded. -/
theorem readTemplate_text (hp : p.WellFormed) (hdepth : t.nesting ≤ depthLimit)
    (hkeys : t.DistinctKeys) : (p.readTemplate t.text).1 = .ok (t.value p) :=
  readTemplate_of_extract hp hdepth hkeys (by rw [extract_text])

theorem readTemplate_flatten (hp : p.WellFormed) (hdepth : t.nesting ≤ depthLimit)
    (hkeys : t.DistinctKeys) {q : Placeholders}
    (hmarkless : RepeatBlock.Markless (t.flatten q).1) :
    (p.readTemplate (t.flatten q).1).1 = .ok (t.value q) :=
  readTemplate_of_extract hp hdepth hkeys (by rw [RepeatBlock.extract_of_markless hmarkless])

end Tree

end JsonTemplate
