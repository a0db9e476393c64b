import JsonTemplate.Proofs.Grammar
import JsonTemplate.Proofs.Handling
import JsonTemplate.Proofs.Rounds
import JsonTemplate.ValueSource.Scripted

/-!
# What is resolved, and what is reported

Which directives an expansion comes to, and which blocks it cannot read, is settled by the text
(`Template.occurrences`). An evaluation resolves and reports these, one after the other, so that
what is kept from one to the next is true of all of them (`Resolving.Traced`). The calls and the
diagnostics of a finished expansion are those of its occurrences, and an occurrence that falls back
on its name is reported once (`Template.expand_handled`).
-/

namespace JsonTemplate

open Resolving

variable {σ α β : Type}

/-! ## Occurrences -/

/-- What an expansion comes to: a directive, or a block that cannot be read. -/
inductive Occurrence
  | directive (d : Directive)
  | block (name : String) (error : TemplateError)

/-- An occurrence with what happens there. -/
inductive Episode
  | directive (d : Directive) (calls : List Call) (fate : Fate)
  | block (name : String) (error : TemplateError)

namespace Episode

def occurrence : Episode → Occurrence
  | .directive d _ _ => .directive d
  | .block name error => .block name error

def calls : Episode → List Call
  | .directive _ calls _ => calls
  | .block _ _ => []

def diagnostic? : Episode → Option Diagnostic
  | .directive d _ fate => fate.diagnostic? d
  | .block name error =>
    some ⟨.blockFailure, name, "Could not parse repeat block: " ++ error.message⟩

end Episode

/-- Episodes one after the other, from a state of the source to the state after them. -/
inductive Course (source : ValueSource σ) : List Episode → σ → σ → Prop
  | nil {s : σ} : Course source [] s s
  | directive {d : Directive} {calls : List Call} {fate : Fate} {rest : List Episode} {s s₁ s' : σ}
    (hhandled : Handled source d s calls fate s₁) (hrest : Course source rest s₁ s') :
    Course source (.directive d calls fate :: rest) s s'
  | block {name : String} {error : TemplateError} {rest : List Episode} {s s' : σ}
    (hrest : Course source rest s s') : Course source (.block name error :: rest) s s'

theorem Course.append {source : ValueSource σ} {xs ys : List Episode} {s s₁ s' : σ}
    (hx : Course source xs s s₁) (hy : Course source ys s₁ s') : Course source (xs ++ ys) s s' := by
  induction hx with
  | nil => exact hy
  | directive hhandled _ ih => exact .directive hhandled (ih hy)
  | block _ ih => exact .block (ih hy)

/-! ## The occurrences of an outline -/

def Segment.directive? : Segment → Option Directive
  | .directive d => some d
  | .literal _ | .verbatim _ => none

/-- The directives of a string that names no block. -/
def directivesOf (s : String) : List Directive :=
  match if Token.isToken s.toList then Directive.parse? s.toList else none with
  | some d => [d]
  | none =>
    if Expression.isLikely s.toList then (Expression.parse s.toList).filterMap Segment.directive?
    else []

namespace Outline

mutual

/-- What the evaluation of an outline comes to, from left to right. -/
def occurrences : Outline → List Occurrence
  | .null | .bool _ | .number _ => []
  | .text s => (directivesOf s).map .directive
  | .array items => itemOccurrences items
  | .object fields => fieldOccurrences fields
  | .unread made name error => itemOccurrences made ++ [.block name error]

def itemOccurrences : List Outline → List Occurrence
  | [] => []
  | item :: rest => item.occurrences ++ itemOccurrences rest

def fieldOccurrences : List (String × Outline) → List Occurrence
  | [] => []
  | (_, value) :: rest => value.occurrences ++ fieldOccurrences rest

end

end Outline

/-! ## Evaluation -/

/-- The arguments of a directive have been read from texts. -/
def Directive.IsRead (d : Directive) : Prop :=
  ∀ v ∈ d.args, ∃ t, v = readArgument t

theorem Directive.isRead_ofName (name : List Char) : (ofName name).IsRead := by
  intro v hv
  cases hv

theorem Directive.isRead_ofToken (k : Token) : (ofToken k).IsRead := by
  intro v hv
  change v ∈ (k.arguments.map parseArguments).getD [] at hv
  cases harguments : k.arguments with
  | none =>
    rw [harguments] at hv
    cases hv
  | some t =>
    rw [harguments, Option.map_some, Option.getD_some, parseArguments] at hv
    split at hv
    · cases hv
    · obtain ⟨p, -, rfl⟩ := List.mem_map.1 hv
      exact ⟨p, rfl⟩

theorem Directive.isRead_of_parse? {t : List Char} {d : Directive} (h : parse? t = some d) :
    d.IsRead := by
  obtain ⟨k, -, -, -, -, rfl⟩ := parse?_eq_some_iff.1 h
  exact isRead_ofToken k

theorem Segment.isRead_of_parse {t : List Char} {d : Directive} (h : parse t = .directive d) :
    d.IsRead := by
  unfold parse at h
  split at h
  · rename_i rest
    cases hparse : Directive.parse? ('@' :: rest) with
    | none =>
      rw [hparse] at h
      cases h
      exact Directive.isRead_ofName rest
    | some d' =>
      rw [hparse] at h
      cases h
      exact Directive.isRead_of_parse? hparse
  · repeat' split at h
    all_goals cases h

theorem Expression.isRead_of_mem_parse {t : List Char} {d : Directive}
    (h : .directive d ∈ parse t) : d.IsRead := by
  obtain ⟨part, -, hpart⟩ := List.mem_map.1 h
  exact Segment.isRead_of_parse hpart

namespace Resolving

/-- A property of resolutions and of what they come to, kept by what an evaluation is made of. -/
structure Traced (source : ValueSource σ)
    (P : ∀ α : Type, List Occurrence → Resolving σ α → Prop) : Prop where
  pure : ∀ {α : Type} (a : α), P α [] (pure a)
  bind : ∀ {α β : Type} {os os' : List Occurrence} {r : Resolving σ α} {k : α → Resolving σ β},
    P α os r → (∀ a, P β os' (k a)) → P β (os ++ os') (r >>= k)
  resolve : ∀ d : Directive, d.IsRead → P Json [.directive d] (resolve source d)
  report : ∀ name error, P Unit [.block name error] (report
    ⟨.blockFailure, name, "Could not parse repeat block: " ++ error.message⟩)

namespace Traced

variable {source : ValueSource σ} {P : ∀ α : Type, List Occurrence → Resolving σ α → Prop}
  (h : Traced source P)
include h

/-- What is made of a result comes to nothing. -/
theorem map {os : List Occurrence} {r : Resolving σ α} (hr : P α os r) (f : α → β) :
    P β os (do return f (← r)) := by
  have hbind := h.bind hr fun a => h.pure (f a)
  rwa [List.append_nil] at hbind

theorem segmentTexts : ∀ segments : List Segment,
    (∀ d, .directive d ∈ segments → d.IsRead) →
      P _ ((segments.filterMap Segment.directive?).map .directive) (segmentTexts source segments)
  | [], _ => h.pure []
  | .literal s :: rest, hread =>
    h.bind (h.pure s) fun s => h.map
      (segmentTexts rest fun d hd => hread d (List.mem_cons_of_mem _ hd)) (s :: ·)
  | .verbatim s :: rest, hread =>
    h.bind (h.pure s) fun s => h.map
      (segmentTexts rest fun d hd => hread d (List.mem_cons_of_mem _ hd)) (s :: ·)
  | .directive d :: rest, hread =>
    h.bind (h.map (h.resolve d (hread d List.mem_cons_self)) Json.display) fun s => h.map
      (segmentTexts rest fun d hd => hread d (List.mem_cons_of_mem _ hd)) (s :: ·)

theorem resolveExpression (t : List Char) :
    P _ (((Expression.parse t).filterMap Segment.directive?).map .directive)
      (resolveExpression source t) := by
  have hread (d : Directive) (hd : .directive d ∈ Expression.parse t) : d.IsRead :=
    Expression.isRead_of_mem_parse hd
  unfold Resolving.resolveExpression
  split
  · rename_i d hparse
    rw [hparse] at hread ⊢
    exact h.resolve d (hread d List.mem_cons_self)
  · rename_i segment hsingle hparse
    rw [hparse]
    cases segment with
    | directive d => exact absurd rfl (hsingle d)
    | literal s => exact h.pure _
    | verbatim s => exact h.pure _
  · exact h.map (h.segmentTexts _ hread) fun texts => Json.string (String.join texts)

theorem resolveString (s : String) :
    P _ ((directivesOf s).map .directive) (resolveString source s) := by
  unfold Resolving.resolveString directivesOf
  dsimp only
  cases hparse : if Token.isToken s.toList then Directive.parse? s.toList else none with
  | some d =>
    split at hparse
    · exact h.resolve d (Directive.isRead_of_parse? hparse)
    · cases hparse
  | none =>
    dsimp only
    split
    · exact h.resolveExpression _
    · exact h.pure _

end Traced

end Resolving

namespace Outline

variable {source : ValueSource σ} {P : ∀ α : Type, List Occurrence → Resolving σ α → Prop}
  (h : Traced source P)
include h

mutual

theorem traced_evaluate : ∀ o : Outline, P _ o.occurrences (o.evaluate source)
  | .null | .bool _ | .number _ => by
    rw [evaluate]
    exact h.pure _
  | .text s => by
    rw [evaluate, occurrences]
    exact h.resolveString s
  | .array items => by
    rw [evaluate, occurrences]
    exact h.map (traced_evaluateItems items) Json.array
  | .object fields => by
    rw [evaluate, occurrences]
    exact h.map (traced_evaluateFields fields) Json.object
  | .unread made name error => by
    rw [evaluate, occurrences]
    exact h.bind (traced_evaluateItems made) fun _ =>
      h.map (h.report name error) fun _ => Json.array []

theorem traced_evaluateItems : ∀ os : List Outline,
    P _ (itemOccurrences os) (evaluateItems source os)
  | [] => by
    rw [evaluateItems]
    exact h.pure _
  | o :: rest => by
    rw [evaluateItems, itemOccurrences]
    exact h.bind (traced_evaluate o) fun v => h.map (traced_evaluateItems rest) (v :: ·)

theorem traced_evaluateFields : ∀ os : List (String × Outline),
    P _ (fieldOccurrences os) (evaluateFields source os)
  | [] => by
    rw [evaluateFields]
    exact h.pure _
  | (key, o) :: rest => by
    rw [evaluateFields, fieldOccurrences]
    exact h.bind (traced_evaluate o) fun v => h.map (traced_evaluateFields rest) ((key, v) :: ·)

end

end Outline

/-! ## Courses -/

namespace Resolving

variable {source : ValueSource σ}

/-- A resolution that returns has come to the occurrences: its calls and its diagnostics are theirs,
after those there were. -/
def ComesTo (source : ValueSource σ) (α : Type) (os : List Occurrence)
    (r : Resolving (σ × List Call) α) : Prop :=
  ∀ (s : σ) (calls : List Call) (ds : List Diagnostic) (a : α) (l : Ledger (σ × List Call)),
    r.run ⟨(s, calls), ds⟩ = .ok (a, l) → ∃ es s', es.map Episode.occurrence = os
      ∧ Course source es s s'
      ∧ l = ⟨(s', calls ++ es.flatMap Episode.calls), ds ++ es.filterMap Episode.diagnostic?⟩

theorem run_resolve_recorded_iff {d : Directive} {s : σ} {calls : List Call}
    {ds : List Diagnostic} {v : Json} {l : Ledger (σ × List Call)} :
    (resolve source.recorded d).run ⟨(s, calls), ds⟩ = .ok (v, l)
      ↔ ∃ made fate s', Handled source d s made fate s' ∧ v = fate.result d
        ∧ l = ⟨(s', calls ++ made), ds ++ (fate.diagnostic? d).toList⟩ := by
  rw [run_resolve_eq_ok_iff]
  constructor
  · rintro ⟨made, fate, u, h, rfl, rfl⟩
    obtain ⟨s', hhandled, rfl⟩ := handled_recorded_iff.1 h
    exact ⟨made, fate, s', hhandled, rfl, rfl⟩
  · rintro ⟨made, fate, s', h, rfl, rfl⟩
    exact ⟨made, fate, _, handled_recorded_iff.2 ⟨s', h, rfl⟩, rfl, rfl⟩

theorem traced_comesTo (source : ValueSource σ) : Traced source.recorded (ComesTo source) where
  pure a := by
    intro s calls ds _ l h
    cases h
    exact ⟨[], s, rfl, .nil, by simp⟩
  bind {_ _ os os' r k} hr hk := by
    intro s calls ds b l h
    obtain ⟨a, l₁, hfirst, hrest⟩ := run_bind_eq_ok_iff.1 h
    obtain ⟨es, s₁, rfl, hes, rfl⟩ := hr _ _ _ _ _ hfirst
    obtain ⟨es', s', rfl, hes', rfl⟩ := hk a _ _ _ _ _ hrest
    exact ⟨es ++ es', s', by simp, hes.append hes', by simp⟩
  resolve d _ := by
    intro s calls ds v l h
    obtain ⟨made, fate, s', hhandled, -, rfl⟩ := run_resolve_recorded_iff.1 h
    refine ⟨[.directive d made fate], s', rfl, .directive hhandled .nil, ?_⟩
    cases hfate : fate.diagnostic? d <;> simp [Episode.calls, Episode.diagnostic?, hfate]
  report name error := by
    intro s calls ds _ l h
    cases h
    exact ⟨[.block name error], s, rfl, .block .nil, by simp [Episode.calls, Episode.diagnostic?]⟩

end Resolving

/-! ## Whole expansions -/

theorem Script.answers_source (script : Script) : script.source.Answers := by
  intro namespaceName method args s
  unfold source
  dsimp only
  split
  · exact ⟨_, rfl⟩
  · rcases script.answersFor? namespaceName method with _ | ⟨name, answers⟩
    · exact ⟨_, rfl⟩
    · conv =>
        enter [1, r, 1]
        whnf
      cases answers[s.count name % answers.length]? <;> exact ⟨_, rfl⟩

/-- A source that answers deals with every directive. -/
theorem exists_handled {source : ValueSource σ} (h : source.Answers) (d : Directive) (s : σ) :
    ∃ made fate s', Handled source d s made fate s' := by
  obtain ⟨⟨v, l⟩, hrun⟩ := (closed_returns h).resolve d ⟨s, []⟩
  exact exists_handled_of_run hrun

namespace Template

/-- What one expansion of a text comes to. -/
def textOccurrences (text : List Char) : List Occurrence :=
  match Placeholders.readTemplate text {} with
  | (.error _, _) => []
  | (.ok v, p) =>
    match (Outlining.value (Outlining.string
        (p.blocks.length + Expanding.nestingAllowance)) v).run p with
    | some (o, _) => o.occurrences
    | none => []

/-- What the expansion of a template comes to; each round of a repeated text to the same. -/
def occurrences (t : List Char) : List Occurrence :=
  match Plan.ofText? t with
  | some (.once _ text) => textOccurrences text
  | some (.repeated text n) => (List.replicate n (textOccurrences text)).flatten
  | none => []

variable {source : ValueSource σ} {text : List Char}

theorem exists_course_of_expandOnce {s : σ} {calls : List Call} {r : Expanded}
    {u : σ × List Call}
    (h : (expandOnce source.recorded text).run.run (s, calls) = .ok (.ok r, u)) :
    ∃ es s', es.map Episode.occurrence = textOccurrences text ∧ Course source es s s'
      ∧ u = (s', calls ++ es.flatMap Episode.calls)
      ∧ r.diagnostics = es.filterMap Episode.diagnostic? := by
  rcases hread : Placeholders.readTemplate text {} with ⟨e | v, p⟩
  · rw [run_expandOnce, hread] at h
    cases h
  · obtain ⟨o, p', ho, w, l, hw, hr⟩ := exists_outline_of_run hread h
    obtain ⟨es, s', hes, hcourse, rfl⟩ :=
      Outline.traced_evaluate (traced_comesTo source) o s calls [] w l hw
    cases hr
    have htext : textOccurrences text = o.occurrences := by
      rw [textOccurrences, hread]
      dsimp only
      rw [ho]
    exact ⟨es, s', hes.trans htext.symm, hcourse, rfl, rfl⟩

/-- Round by round: each goes on from the state that the one before it leaves. -/
theorem exists_course_of_rounds : ∀ {n : Nat} {s : σ} {calls : List Call} {xs : List Expanded}
    {u : σ × List Call}, (rounds source.recorded text n).run.run (s, calls) = .ok (.ok xs, u) →
      ∃ es s', es.map Episode.occurrence = (List.replicate n (textOccurrences text)).flatten
        ∧ Course source es s s' ∧ u = (s', calls ++ es.flatMap Episode.calls)
        ∧ xs.flatMap Expanded.diagnostics = es.filterMap Episode.diagnostic?
  | 0, s, calls, xs, u, h => by
    cases h
    exact ⟨[], s, rfl, .nil, by simp, rfl⟩
  | n + 1, s, calls, xs, u, h => by
    rw [rounds] at h
    obtain ⟨r, u₁, hr, h⟩ := run_bind_eq_ok_iff.1 h
    obtain ⟨rs, u₂, hrs, h⟩ := run_bind_eq_ok_iff.1 h
    cases h
    obtain ⟨es, s₁, hes, hcourse, rfl, hreport⟩ := exists_course_of_expandOnce hr
    obtain ⟨es', s', hes', hcourse', rfl, hreport'⟩ := exists_course_of_rounds hrs
    refine ⟨es ++ es', s', ?_, hcourse.append hcourse', by simp, ?_⟩
    · rw [List.map_append, hes, hes', List.replicate_succ, List.flatten_cons]
    · rw [List.flatMap_cons, hreport, hreport', List.filterMap_append]

theorem exists_course_of_expand {t : List Char} {s : σ} {r : Expanded} {u : σ × List Call}
    (h : (expand source.recorded t).run.run (s, []) = .ok (.ok r, u)) :
    ∃ es s', es.map Episode.occurrence = occurrences t ∧ Course source es s s'
      ∧ u = (s', es.flatMap Episode.calls)
      ∧ r.diagnostics = es.filterMap Episode.diagnostic? := by
  unfold expand at h
  unfold occurrences
  rcases hplan : Plan.ofText? t with _ | ⟨c, text⟩ | ⟨text, n⟩
  all_goals
    rw [hplan] at h
    dsimp only at h ⊢
  · cases h
  · obtain ⟨es, s', hes, hcourse, hu, hreport⟩ := exists_course_of_expandOnce h
    exact ⟨es, s', hes, hcourse, hu, hreport⟩
  · obtain ⟨-, xs, hxs, rfl⟩ := (run_repeated_eq_ok_iff _ text n).1 h
    obtain ⟨es, s', hes, hcourse, hu, hreport⟩ := exists_course_of_rounds hxs
    exact ⟨es, s', hes, hcourse, hu, hreport⟩

/-- A resolution gives, calls and reports what the directive's handling says, after what was
recorded and reported before, and a source that answers handles every directive. The calls and the
diagnostics of a finished expansion are those of its occurrences, one after the other: one
diagnostic for a directive that falls back on its name, for a name that is no generator and for a
block that cannot be read, and none for another directive. -/
theorem expand_handled (source : ValueSource σ) :
    (∀ (d : Directive) (s : σ) (calls : List Call) (ds : List Diagnostic) (v : Json)
        (l : Ledger (σ × List Call)),
      (resolve source.recorded d).run ⟨(s, calls), ds⟩ = .ok (v, l)
        ↔ ∃ made fate s', Handled source d s made fate s' ∧ v = fate.result d
          ∧ l = ⟨(s', calls ++ made), ds ++ (fate.diagnostic? d).toList⟩)
    ∧ (source.Answers → ∀ (d : Directive) (s : σ), ∃ made fate s', Handled source d s made fate s')
    ∧ ∀ (t : List Char) (s s' : σ) (calls : List Call) (r : Expanded),
        (expand source.recorded t).run.run (s, []) = .ok (.ok r, s', calls) →
          ∃ es : List Episode, es.map Episode.occurrence = occurrences t ∧ Course source es s s'
            ∧ calls = es.flatMap Episode.calls
            ∧ r.diagnostics = es.filterMap Episode.diagnostic? := by
  refine ⟨fun d s calls ds v l => run_resolve_recorded_iff, exists_handled, ?_⟩
  intro t s s' calls r h
  obtain ⟨es, _, hes, hcourse, hu, hreport⟩ := exists_course_of_expand h
  cases hu
  exact ⟨es, hes, hcourse, rfl, hreport⟩

/-- A script without one method and with two that fail, one of them only once. -/
def failingScript : Script where
  missing := ["name.nick"]
  answers := [("string.alpha", [.invalid "no options", .value (.string "xyz")]),
    ("number.int", [.invalid "no bounds"])]

/-- Directives for these methods, and a block that is not JSON. -/
def failingTemplate : List Char :=
  "[@name.nick, @string.alpha(3), @number.int, [,] @repeat(2)]".toList

theorem expand_handled_failingTemplate :
    failingScript.source.Answers
      ∧ (∃ made fate s',
        Handled failingScript.source ⟨"string", some "alpha", [.ofInt 3]⟩ [] made fate s')
      ∧ ∃ r uses calls, (expand failingScript.source.recorded failingTemplate).run.run ([], [])
          = .ok (.ok r, uses, calls)
        ∧ r.diagnostics.map Diagnostic.directive = ["name.nick", "number.int", "ARRAY_0"]
        ∧ ∃ es : List Episode, es.map Episode.occurrence = occurrences failingTemplate
          ∧ Course failingScript.source es [] uses ∧ calls = es.flatMap Episode.calls
          ∧ r.diagnostics = es.filterMap Episode.diagnostic? := by
  obtain ⟨-, htotal, hexpand⟩ := expand_handled failingScript.source
  have hanswers := failingScript.answers_source
  have hreport : ((expand failingScript.source.recorded failingTemplate).run.run ([], [])
      ).toOption.map (fun x => x.1.toOption.map fun r => r.diagnostics.map Diagnostic.directive)
        = some (some ["name.nick", "number.int", "ARRAY_0"]) := by
    decide +kernel
  refine ⟨hanswers, htotal hanswers _ _, ?_⟩
  rcases hrun : (expand failingScript.source.recorded failingTemplate).run.run ([], []) with
    halt | ⟨e | r, uses, calls⟩
  all_goals
    rw [hrun] at hreport
  · cases hreport
  · cases hreport
  · exact ⟨r, uses, calls, rfl, Option.some.inj (Option.some.inj hreport),
      hexpand failingTemplate [] uses calls r hrun⟩

end Template

end JsonTemplate
