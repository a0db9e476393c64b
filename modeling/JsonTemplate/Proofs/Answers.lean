import JsonTemplate.Expansion

/-!
# Sources that answer

A resolution is made of questions to the source and of reports, so that what is true of these, and
of whatever is made of them, is true of every resolution (`Resolving.Closed`). If every call to a
source gives a result, be it a value or an error, then so does every resolution: of a directive, of
an expression, and of a string of a template (`Resolving.closed_returns`).
-/

namespace JsonTemplate

variable {σ α β : Type}

namespace Resolving

/-- A property of the questions to a source and of reports, and of what is made of such parts. -/
structure Closed (source : ValueSource σ) (P : ∀ α : Type, Resolving σ α → Prop) : Prop where
  pure : ∀ {α : Type} (a : α), P α (pure a)
  bind : ∀ {α β : Type} {r : Resolving σ α} {f : α → Resolving σ β}, P α r → (∀ a, P β (f a)) →
    P β (r >>= f)
  report : ∀ d, P Unit (report d)
  has : ∀ namespaceName method, P Bool (has source namespaceName method)
  call : ∀ namespaceName method args,
    P (Except SourceError Json) (call source namespaceName method args)

namespace Closed

variable {source : ValueSource σ} {P : ∀ α : Type, Resolving σ α → Prop} (h : Closed source P)
include h

theorem callAdapted (namespaceName method : String) (args : List Json) :
    P _ (callAdapted source namespaceName method args) := by
  unfold Resolving.callAdapted
  refine h.bind (h.call _ _ _) fun r => ?_
  cases r with
  | ok v => exact h.pure _
  | error e =>
    dsimp only
    split
    · exact h.call _ _ _
    · exact h.pure _

theorem resolve (d : Directive) : P _ (resolve source d) := by
  unfold Resolving.resolve
  split
  · unfold resolveQualified
    refine h.bind (h.has _ _) fun b => ?_
    split
    · refine h.bind (h.callAdapted _ _ _) fun r => ?_
      cases r with
      | ok v => exact h.pure _
      | error e => exact h.bind (h.report _) fun _ => h.pure _
    · exact h.bind (h.report _) fun _ => h.pure _
  · unfold resolveName
    split
    · refine h.bind (h.call _ _ _) fun r => ?_
      cases r with
      | ok v => exact h.pure _
      | error e => exact h.bind (h.report _) fun _ => h.pure _
    · refine h.bind (h.report _) fun _ => h.bind (h.call _ _ _) fun r => ?_
      cases r <;> exact h.pure _

theorem segmentTexts : ∀ segments : List Segment, P _ (segmentTexts source segments)
  | [] => h.pure _
  | segment :: rest => by
    have hsegment : P _ (segmentText source segment) := by
      cases segment with
      | literal s => exact h.pure _
      | verbatim s => exact h.pure _
      | directive d => exact h.bind (h.resolve d) fun _ => h.pure _
    exact h.bind hsegment fun s => h.bind (segmentTexts rest) fun _ => h.pure _

theorem resolveString (s : String) : P _ (resolveString source s) := by
  unfold Resolving.resolveString
  dsimp only
  split
  · exact h.resolve _
  · split
    · unfold resolveExpression
      split
      · exact h.resolve _
      · exact h.pure _
      · exact h.bind (h.segmentTexts _) fun _ => h.pure _
    · exact h.pure _

end Closed

end Resolving

/-- Every call gives a result. -/
def ValueSource.Answers (source : ValueSource σ) : Prop :=
  ∀ namespaceName method args s, ∃ r, (source.call namespaceName method args).run.run s = .ok r

/-- The source that has no method and answers each call with the same value. -/
def ValueSource.constant (v : Json) : ValueSource Unit where
  has _ _ := return false
  call _ _ _ := return v

theorem ValueSource.answers_constant (v : Json) : (constant v).Answers :=
  fun _ _ _ _ => ⟨_, rfl⟩

namespace Resolving

def Returns (r : Resolving σ α) : Prop :=
  ∀ l, ∃ x, r.run l = .ok x

theorem returns_pure (a : α) : Returns (pure a : Resolving σ α) :=
  fun l => ⟨(a, l), rfl⟩

theorem Returns.bind {r : Resolving σ α} {f : α → Resolving σ β} (hr : r.Returns)
    (hf : ∀ a, (f a).Returns) : (r >>= f).Returns := by
  intro l
  obtain ⟨⟨a, l'⟩, h⟩ := hr l
  obtain ⟨x, hx⟩ := hf a l'
  refine ⟨x, ?_⟩
  rw [StateT.run_bind, h]
  exact hx

theorem returns_report (d : Diagnostic) : Returns (report d : Resolving σ Unit) :=
  fun _ => ⟨_, rfl⟩

theorem closed_returns {source : ValueSource σ} (h : source.Answers) :
    Closed source fun _ r => r.Returns where
  pure := returns_pure
  bind := Returns.bind
  report := returns_report
  has _ _ _ := ⟨_, rfl⟩
  call namespaceName method args l := by
    obtain ⟨⟨r, s⟩, hr⟩ := h namespaceName method args l.source
    refine ⟨(r, { l with source := s }), ?_⟩
    simp only [call, StateT.run] at hr ⊢
    rw [hr]
    rfl

end Resolving

end JsonTemplate
