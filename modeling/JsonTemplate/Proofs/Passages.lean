import JsonTemplate.Proofs.Numerics
import JsonTemplate.Proofs.Parts

/-!
# Passages

Reading past a part of a text takes the reader from one state to another, and the placeholders with
it, whatever follows (`Passes`). Blanks change nothing, a chain counts as one string, and a number
is complete where something follows it that can follow a value.
-/

namespace JsonTemplate

open Text Json Json.ReaderState Piece

/-! ## States of the reader -/

namespace Json.ReaderState

/-- Blanks change nothing. -/
def Idle (s : ReaderState) : Prop :=
  ∀ c, isJsonBlank c = true → s.step c = .ok s

theorem idle_of_openString? {s : ReaderState} {r : List Frame × StringRole}
    (h : s.openString? = some r) : s.Idle := by
  intro c hc
  obtain ⟨frames, phase⟩ := s
  cases phase <;> simp [openString?] at h <;> simp [step, hc]

theorem idle_deliver (v : Json) (frames : List Frame) : (deliver v frames).Idle := by
  intro c hc
  rcases frames with _ | ⟨_ | _, frames⟩ <;> simp [deliver, step, afterValue, hc]

theorem idle_colon (frames : List Frame) (fields : Fields) (key : String) :
    Idle ⟨frames, .colon fields key⟩ := by
  intro c hc
  simp [step, hc]

/-- Where a value is due, any character but a blank or a closing bracket begins it. -/
theorem step_of_openString? {s : ReaderState} {frames : List Frame}
    (h : s.openString? = some (frames, .value)) {c : Char} (hb : isJsonBlank c = false)
    (hc : c ≠ ']') : s.step c = startValue frames c := by
  obtain ⟨frames', phase⟩ := s
  cases phase <;> simp [openString?] at h <;> subst h <;> simp [step, hb, hc]

theorem takeString?_value {s : ReaderState} {frames : List Frame}
    (h : s.openString? = some (frames, .value)) (x : String) :
    s.takeString? x = some (deliver (.string x) frames) := by
  simp [takeString?, h, endString]

end Json.ReaderState

/-! ## Parts of a text -/

/-- Reading past `t`, which `rest` follows, takes the reader from `s` to `s'` and the placeholders
from `p` to `p'`. -/
structure Reaches (t rest : List Char) (p : Placeholders) (s : ReaderState) (p' : Placeholders)
    (s' : ReaderState) : Prop where
  reading : readAll? (cut (t ++ rest)) p s = readAll? (cut rest) p' s'
  table : (quoteAll (cut (t ++ rest)) p).2 = (quoteAll (cut rest) p').2

/-- Reading past `t` meets no placeholder that is written out, either. -/
structure Passes (t rest : List Char) (p : Placeholders) (s : ReaderState) (p' : Placeholders)
    (s' : ReaderState) : Prop extends Reaches t rest p s p' s' where
  fresh : Fresh (cut rest) → Fresh (cut (t ++ rest))

section Passing

variable {t u rest : List Char} {p p₁ p' : Placeholders} {s s₁ s' : ReaderState}

theorem Reaches.append (h : Reaches t (u ++ rest) p s p₁ s₁) (h' : Reaches u rest p₁ s₁ p' s') :
    Reaches (t ++ u) rest p s p' s' := by
  constructor
  · rw [List.append_assoc, h.reading, h'.reading]
  · rw [List.append_assoc, h.table, h'.table]

theorem Passes.refl (rest : List Char) (p : Placeholders) (s : ReaderState) :
    Passes [] rest p s p s :=
  ⟨⟨rfl, rfl⟩, id⟩

theorem Passes.append (h : Passes t (u ++ rest) p s p₁ s₁) (h' : Passes u rest p₁ s₁ p' s') :
    Passes (t ++ u) rest p s p' s' where
  toReaches := h.toReaches.append h'.toReaches
  fresh hf := by
    rw [List.append_assoc]
    exact h.fresh (h'.fresh hf)

theorem passes_char {c : Char} (hquote : c ≠ '"') (hsign : c ≠ '@') (hs : s.step c = .ok s')
    (rest : List Char) (p : Placeholders) : Passes [c] rest p s p s' := by
  have hcut := cut_cons hquote hsign rest
  refine ⟨⟨?_, ?_⟩, ?_⟩
  · rw [List.singleton_append, hcut, readAll?, hs]
    rfl
  · rw [List.singleton_append, hcut, quoteAll, Piece.toPlain]
  · intro hf chain hc
    rw [List.singleton_append, hcut] at hc
    rcases List.mem_cons.1 hc with hc | hc
    · cases hc
    · exact hf chain hc

theorem passes_run (h : ∀ c ∈ t, c ≠ '"' ∧ c ≠ '@') (hs : Json.run s t = .ok s')
    (rest : List Char) (p : Placeholders) : Passes t rest p s p s' := by
  induction t generalizing s with
  | nil =>
    cases hs
    exact .refl rest p _
  | cons c t ih =>
    rw [Json.run] at hs
    split at hs
    · rename_i s₁ hstep
      obtain ⟨hquote, hsign⟩ := h c List.mem_cons_self
      have hrest := ih (fun d hd => h d (List.mem_cons_of_mem c hd)) hs
      exact (passes_char hquote hsign hstep (t ++ rest) p).append hrest
    · cases hs

theorem passes_blanks (hs : s.Idle) (b : Blanks) (rest : List Char) (p : Placeholders) :
    Passes b rest p s p s := by
  have hrun : ∀ {b : List Char}, (∀ c ∈ b, isJsonBlank c = true) → Json.run s b = .ok s := by
    intro b hb
    induction b with
    | nil => rfl
    | cons c b ih =>
      rw [Json.run, hs c (hb c List.mem_cons_self)]
      exact ih fun d hd => hb d (List.mem_cons_of_mem c hd)
  refine passes_run (fun c hc => ?_) (hrun b.2) rest p
  rcases isJsonBlank_iff.1 (b.2 c hc) with rfl | rfl | rfl | rfl <;> decide

section Chains

variable {chain : Chain} {x : String} (hsplit : Chain.split? (t ++ rest) = some (chain, rest))
  (hx : chain.content? p = some x) (hs : s.takeString? x = some s')
include hsplit hx hs

theorem reaches_chain : Reaches t rest p s (chain.toPlain p).2 s' := by
  have hcut := cut_of_split? hsplit
  constructor
  · rw [hcut, readAll?, hx, Option.bind_some, hs, Option.bind_some]
  · rw [hcut, quoteAll, Piece.toPlain]

theorem passes_chain (hfresh : ¬ 1 < chain.operands.length → ∀ q y n, chain.content? q = some y →
    y ≠ Placeholder.ofExpression n) : Passes t rest p s (chain.toPlain p).2 s' where
  toReaches := reaches_chain hsplit hx hs
  fresh hf chain' hc := by
    rw [cut_of_split? hsplit] at hc
    rcases List.mem_cons.1 hc with hc | hc
    · cases hc
      exact hfresh
    · exact hf chain' hc

end Chains

/-! ## Leaves -/

theorem Quote.ne_ofExpression (q : Quote) (n : Nat) : q.value ≠ Placeholder.ofExpression n := by
  intro h
  have ht := congrArg String.toList h
  rw [Placeholder.toList_ofExpression] at ht
  exact q.notExpression (natText n) ht

/-- A literal, be it written like a placeholder or not. -/
theorem Literal.reaches (l : Literal) (hrest : splitJoin? rest = none)
    (hs : s.takeString? l.value = some s') (p : Placeholders) : Reaches l.text rest p s p s' :=
  have hcontent : Chain.content? ⟨l.text, [.literal l.text]⟩ p = some l.value := l.literalText?_text
  reaches_chain (l.chain_split? hrest) hcontent hs

theorem Literal.passes (l : Literal) (hl : ∀ n, l.value ≠ Placeholder.ofExpression n)
    (hrest : splitJoin? rest = none) (hs : s.takeString? l.value = some s') (p : Placeholders) :
    Passes l.text rest p s p s' := by
  have hcontent : ∀ q : Placeholders,
      Chain.content? ⟨l.text, [.literal l.text]⟩ q = some l.value :=
    fun q => l.literalText?_text
  refine passes_chain (l.chain_split? hrest) (hcontent p) hs fun _ q y n hy => ?_
  rw [hcontent q] at hy
  cases hy
  exact hl n

theorem Token.reaches {k : Token} (hk : k.WellFormed) (hrest : Ends rest)
    (hs : s.takeString? (String.ofList k.text) = some s') (p : Placeholders) :
    Reaches k.text rest p s p s' :=
  have hcontent : Chain.content? ⟨k.text, [.token k.text]⟩ p = some (String.ofList k.text) := rfl
  reaches_chain ((Operand.Whole.token hk).chain_split? hrest) hcontent hs

theorem Mention.passes (m : Mention) (hrest : Ends rest)
    (hs : s.takeString? (String.ofList m.text) = some s') (p : Placeholders) :
    Passes m.text rest p s (Chain.toPlain ⟨m.text, [.token m.text]⟩ p).2 s' := by
  refine passes_chain ((Part.mention m).whole_operand.chain_split? hrest) rfl hs
    fun _ q y n hy => ?_
  cases hy
  exact Placeholder.ofList_text_ne_ofExpression m.toToken n

theorem Concatenation.passes (c : Concatenation) (hrest : Ends rest) (p : Placeholders)
    (hs : s.takeString? (Placeholder.ofExpression p.nextExpression) = some s') :
    Passes c.text rest p s (c.chain.toPlain p).2 s' := by
  refine passes_chain (c.split?_text hrest) ?_ hs fun h => absurd c.one_lt_operands h
  rw [Chain.content?_of_joined c.one_lt_operands, if_pos c.any_isToken]

/-- A number is complete where its text ends. -/
theorem passes_number {draft : NumberDraft} {n : JsonNumber} (hn : draft.finish = .ok n)
    (frames : List Frame) (hrest : Ends rest) (p : Placeholders) :
    Passes [] rest p ⟨frames, .number draft⟩ p (deliver (.number n) frames) := by
  refine ⟨⟨?_, rfl⟩, id⟩
  rw [List.nil_append]
  cases rest with
  | nil =>
    rw [cut, readAll?, readAll?]
    rcases frames with _ | ⟨_ | _, frames⟩ <;> simp [close, hn, deliver, Except.toOption]
  | cons c u =>
    have hc : isNumeric c = false ∧ c ≠ '"' ∧ c ≠ '@' := by
      by_cases hb : isJsonBlank c = true
      · rcases isJsonBlank_iff.1 hb with rfl | rfl | rfl | rfl <;> decide
      · have hmem := hrest c (by rw [skipBlanks_cons (by simpa using hb)]; rfl)
        simp only [List.mem_cons, List.not_mem_nil, or_false] at hmem
        rcases hmem with rfl | rfl | rfl <;> decide
    have hstep : step ⟨frames, .number draft⟩ c = (deliver (.number n) frames).step c := by
      simp only [step, NumberDraft.step_eq_finished hn hc.1, hn]
      rcases frames with _ | ⟨_ | _, frames⟩ <;> rfl
    rw [cut_cons hc.2.1 hc.2.2, readAll?, readAll?, hstep]

theorem Scalar.passes (sc : Scalar) {frames : List Frame}
    (h : s.openString? = some (frames, .value)) (hrest : Ends rest) (p : Placeholders) :
    Passes sc.text rest p s p (deliver sc.value frames) := by
  have hchars : ∀ c ∈ sc.text, c ≠ '"' ∧ c ≠ '@' := by
    intro c hc
    constructor <;> rintro rfl <;> exact sc.notMem_text (by decide) hc
  cases sc with
  | null =>
    refine passes_run hchars ?_ rest p
    rw [Scalar.text, Json.run, step_of_openString? h rfl (by decide)]
    rfl
  | bool b =>
    refine passes_run hchars ?_ rest p
    cases b <;>
    · rw [Scalar.text, Json.run, step_of_openString? h rfl (by decide)]
      rfl
  | number n =>
    obtain ⟨d, hd, -, hrun⟩ := n.exists_draft
    have hstart : s.step n.first = .ok ⟨frames, .number (.start n.first)⟩ := by
      rw [step_of_openString? h n.isJsonBlank_first (n.first_ne rfl), n.startValue_first]
    have htext : Json.run s (Scalar.number n).text = .ok ⟨frames, .number d⟩ := by
      rw [Scalar.text, Json.run, hstart]
      exact hrun frames
    have := (passes_run hchars htext ([] ++ rest) p).append (passes_number hd frames hrest p)
    rwa [List.append_nil] at this

end Passing

end JsonTemplate
