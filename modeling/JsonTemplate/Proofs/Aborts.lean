import JsonTemplate.Proofs.DirectiveText
import JsonTemplate.Proofs.Methods
import JsonTemplate.Proofs.Occurrences

/-!
# What stops an expansion

A call to the bundled source returns unless its arguments exceed the limit of the method. From that
it is told which directives have no value (`Directive.Exceeds`), and since an expansion resolves the
directives that its text comes to, whatever their values are, which templates have none
(`Generator.call_returns_iff`).
-/

namespace JsonTemplate

open Generator KeyStream Resolving Width

namespace Generator

/-! ## Calls -/

section Calls

variable {namespaceName method : String} {args : List Json}

/-- Only what the table has is limited. -/
theorem limit_of_not_has (h : has namespaceName method = false) :
    limit namespaceName method = .unlimited := by
  have hlimits : ∀ e ∈ limits, has e.1.1 e.1.2 = true := by
    simp only [limits, List.forall_mem_cons, List.not_mem_nil, false_imp_iff, implies_true]
    decide
  rw [limit]
  cases hlookup : limits.lookup (namespaceName, method) with
  | none => rfl
  | some l =>
    obtain ⟨before, after, hmem, -⟩ := List.lookup_eq_some_iff.1 hlookup
    have hhas := hlimits ((namespaceName, method), l) (by rw [hmem]; simp)
    rw [h] at hhas
    cases hhas

theorem not_exceeded_of_not_has (h : has namespaceName method = false) (args : List Json) :
    ¬ (limit namespaceName method).Exceeded args := by
  rw [limit_of_not_has h]
  exact id

theorem soundUnless_call (now : Calendar.Instant) (hfinite : FiniteNumbers args)
    (h : has namespaceName method = true) :
    SoundUnless ((limit namespaceName method).Exceeded args)
      (call now namespaceName method args) := by
  obtain ⟨g, hfind⟩ := has_iff_exists.1 h
  rw [call_of_find? hfind]
  exact (within_of_find? hfind).sound now args hfinite

theorem run_call_of_exceeded (now : Calendar.Instant)
    (h : (limit namespaceName method).Exceeded args) (s : KeyStream) :
    ∃ halt, (call now namespaceName method args).run.run s = .error halt := by
  cases hhas : has namespaceName method with
  | false => exact absurd h (not_exceeded_of_not_has hhas args)
  | true =>
    obtain ⟨g, hfind⟩ := has_iff_exists.1 hhas
    rw [call_of_find? hfind]
    exact (within_of_find? hfind).stops now args s h

theorem run_call_of_not_exceeded (now : Calendar.Instant) (hfinite : FiniteNumbers args)
    (h : ¬ (limit namespaceName method).Exceeded args) (s : KeyStream) :
    ∃ r s', (call now namespaceName method args).run.run s = .ok (r, s') := by
  cases hhas : has namespaceName method with
  | false => exact ⟨_, _, run_call_of_not_has hhas⟩
  | true => exact (soundUnless_call now hfinite hhas).returns h s

/-- Options that exceed the limit stop nothing while they are not passed as options. -/
theorem run_call_of_bare (now : Calendar.Instant) (hnone : givenOptions? args = none)
    (h : (limit namespaceName method).Exceeded [ArgumentShape.minAndMax args]) (s : KeyStream) :
    ∃ e, (call now namespaceName method args).run.run s = .ok (.error e, s) := by
  cases hhas : has namespaceName method with
  | false => exact absurd h (not_exceeded_of_not_has hhas _)
  | true =>
    obtain ⟨g, hfind⟩ := has_iff_exists.1 hhas
    rw [call_of_find? hfind]
    exact (within_of_find? hfind).bare now args s hnone h

end Calls

/-! ## Arguments -/

/-- A value without parts; a number is finite. -/
inductive Scalar : Json → Prop
  | bool (b : Bool) : Scalar (.bool b)
  | number {n : JsonNumber} {q : ℚ} (h : n.toBinary64.Denotes q) : Scalar (.number n)
  | string (s : String) : Scalar (.string s)

/-- An integer of 64 bits is rounded to a finite double. -/
theorem scalar_ofInt {n : Int} (h : n.natAbs ≤ 2 ^ 64) : Scalar (.ofInt n) :=
  .number (Binary64.denotes_nearest h)

theorem scalar_readArgument (t : List Char) : Scalar (Directive.readArgument t) := by
  rcases Directive.readArgument_cases t with ⟨n, hn, hlow, hhigh⟩ | ⟨x, hx, hfinite⟩ | hstring
  · rw [hn]
    unfold leastInt64 at hlow
    unfold greatestInt64 at hhigh
    exact scalar_ofInt (by omega)
  · rw [hx]
    cases hdouble : x.toBinary64 with
    | finite s m e => exact .number (.mk (Numeral.isStandard_of_toBinary64 hdouble))
    | nan | infinity _ =>
      rw [hdouble] at hfinite
      cases hfinite
  · rw [hstring]
    exact .string _

theorem finiteNumbers_options {fields : Json.Fields} (h : ∀ f ∈ fields, Scalar f.2) :
    FiniteNumbers [.object fields] := by
  intro n hn
  cases hn with
  | @option _ key _ _ hget =>
    obtain ⟨before, after, hmem, -⟩ := List.lookup_eq_some_iff.1 hget
    have hscalar := h (key, .number n) (by rw [hmem]; simp)
    cases hscalar with
    | number hn => exact ⟨_, hn⟩

section Scalars

variable {args : List Json} (h : ∀ v ∈ args, Scalar v)
include h

theorem finiteNumbers_scalars : FiniteNumbers args := by
  intro n hn
  cases hn with
  | bare n rest =>
    cases h (.number n) List.mem_cons_self with
    | number hn => exact ⟨_, hn⟩
  | option rest hget =>
    cases h _ List.mem_cons_self

theorem scalar_argument (place : Nat) {default : Int} (hdefault : default.natAbs ≤ 2 ^ 64) :
    Scalar (ArgumentShape.argument args place default) := by
  unfold ArgumentShape.argument
  cases hget : args[place]? with
  | none => exact scalar_ofInt hdefault
  | some v => exact h v (List.mem_of_getElem? hget)

/-- However scalars are passed, the numbers among them are finite. -/
theorem finiteNumbers_adapt (method : String) :
    FiniteNumbers ((ArgumentShape.ofMethod method).adapt args) := by
  have hnil : FiniteNumbers [] := finiteNumbers_scalars (by simp)
  have hsingle (key : String) {v : Json} (hv : Scalar v) : FiniteNumbers [.object [(key, v)]] :=
    finiteNumbers_options (by simpa using hv)
  have hpair {low high : Int} (hlow : low.natAbs ≤ 2 ^ 64) (hhigh : high.natAbs ≤ 2 ^ 64)
      {rest : Json.Fields} (hrest : ∀ f ∈ rest, Scalar f.2) : FiniteNumbers [.object
        (("min", ArgumentShape.argument args 0 low) :: ("max", ArgumentShape.argument args 1 high)
          :: rest)] := by
    refine finiteNumbers_options (List.forall_mem_cons.2 ⟨scalar_argument h 0 hlow, ?_⟩)
    exact List.forall_mem_cons.2 ⟨scalar_argument h 1 hhigh, hrest⟩
  unfold ArgumentShape.ofMethod
  split_ifs
  all_goals
    unfold ArgumentShape.adapt
    dsimp only
  · split
    · exact hnil
    · exact hpair (by decide) (by decide) (by simp)
  · split
    · exact hnil
    · exact hpair (by decide) (by decide) (by simp)
  · split
    · exact hnil
    · exact hsingle _ (scalar_argument h 0 (by decide))
  · exact hsingle _ (.bool true)
  · split
    · exact hnil
    · exact hsingle _ (scalar_argument h 0 (by decide))
  · exact hpair (by decide) (by decide) (by simpa using .string "age")
  · exact finiteNumbers_scalars h

theorem finiteNumbers_minAndMax : FiniteNumbers [ArgumentShape.minAndMax args] :=
  finiteNumbers_options fun _ hf => h _ (List.of_mem_zip hf).2

theorem givenOptions?_of_scalars (hne : args ≠ []) : givenOptions? args = none := by
  obtain ⟨v, rest, rfl⟩ := List.exists_cons_of_ne_nil hne
  cases h v List.mem_cons_self <;> rfl

end Scalars

end Generator

/-! ## Directives -/

/-- The arguments ask for what the method cannot do, in the first call, or in the second one if they
are passed twice. -/
def Directive.Exceeds (d : Directive) : Prop :=
  ∃ method, d.method = some method
    ∧ ((limit d.name method).Exceeded ((ArgumentShape.ofMethod method).adapt d.args)
      ∨ PassedTwice method d.args
        ∧ (limit d.name method).Exceeded [ArgumentShape.minAndMax d.args])

namespace Generator

section Directives

variable (now : Calendar.Instant) {namespaceName method : String} {args : List Json}

theorem asked_of_not_exceeds (s : KeyStream) (h : ∀ v ∈ args, Scalar v)
    (hnot : ¬ Directive.Exceeds ⟨namespaceName, some method, args⟩) :
    ∃ made r s', Asked (source now) namespaceName method args s made r s' := by
  have hfirst : ¬ (limit namespaceName method).Exceeded
      ((ArgumentShape.ofMethod method).adapt args) :=
    fun hexceeded => hnot ⟨method, rfl, .inl hexceeded⟩
  obtain ⟨r, s₁, hrun⟩ :=
    run_call_of_not_exceeded now (finiteNumbers_adapt h method) hfirst s
  cases r with
  | ok v => exact ⟨_, _, _, .answered hrun⟩
  | error e =>
    by_cases htwice : PassedTwice method args
    · have hsecond : ¬ (limit namespaceName method).Exceeded [ArgumentShape.minAndMax args] :=
        fun hexceeded => hnot ⟨method, rfl, .inr ⟨htwice, hexceeded⟩⟩
      obtain ⟨r, s', hagain⟩ :=
        run_call_of_not_exceeded now (finiteNumbers_minAndMax h) hsecond s₁
      exact ⟨_, _, _, .retried hrun htwice hagain⟩
    · exact ⟨_, _, _, .failed hrun htwice⟩

variable {now} in
theorem not_exceeds_of_asked (h : ∀ v ∈ args, Scalar v) {made : List Call}
    {r : Except SourceError Json} {s s' : KeyStream}
    (hasked : Asked (source now) namespaceName method args s made r s') :
    ¬ Directive.Exceeds ⟨namespaceName, some method, args⟩ := by
  rintro ⟨_, ⟨⟩, hfirst | ⟨htwice, hsecond⟩⟩
  · obtain ⟨halt, hrun⟩ := run_call_of_exceeded now hfirst s
    cases hasked with
    | answered hcall => cases hrun.symm.trans hcall
    | failed hcall _ => cases hrun.symm.trans hcall
    | retried hcall _ _ => cases hrun.symm.trans hcall
  · -- scalars are no options, so that the second call is made
    have hbare := givenOptions?_of_scalars h htwice.2
    have hshape : (ArgumentShape.ofMethod method).adapt args = args := by
      rw [htwice.1]
      rfl
    obtain ⟨e, hrun⟩ := run_call_of_bare now hbare hsecond s
    rw [← hshape] at hrun
    cases hasked with
    | answered hcall => cases hrun.symm.trans hcall
    | failed _ honce => exact honce htwice
    | @retried s₁ _ _ _ _ _ hagain =>
      obtain ⟨halt, hstops⟩ := run_call_of_exceeded now hsecond s₁
      cases hstops.symm.trans hagain

/-- A name alone is never too much. -/
theorem run_call_of_unlimited (s : KeyStream) (h : limit namespaceName method = .unlimited) :
    ∃ r s', (call now namespaceName method []).run.run s = .ok (r, s') := by
  refine run_call_of_not_exceeded now (finiteNumbers_scalars (by simp)) ?_ s
  rw [h]
  exact id

theorem exists_handled_iff (s : KeyStream) {d : Directive} (hread : d.IsRead) :
    (∃ made fate s', Handled (source now) d s made fate s') ↔ ¬ d.Exceeds := by
  have hscalars : ∀ v ∈ d.args, Scalar v := by
    intro v hv
    obtain ⟨t, rfl⟩ := hread v hv
    exact scalar_readArgument t
  obtain ⟨name, method, args⟩ := d
  cases method with
  | none =>
    have hnot : ¬ Directive.Exceeds ⟨name, none, args⟩ := by
      rintro ⟨_, hmethod, -⟩
      cases hmethod
    refine iff_of_true ?_ hnot
    by_cases hname : name = "boolean"
    · subst hname
      obtain ⟨r, s', hrun⟩ := run_call_of_unlimited now s
        (rfl : limit "datatype" "boolean" = .unlimited)
      exact ⟨_, _, s', .boolean hrun⟩
    · obtain ⟨r, s', hrun⟩ := run_call_of_unlimited now s
        (rfl : limit "lorem" "word" = .unlimited)
      exact ⟨_, _, s', .word hname hrun⟩
  | some method =>
    cases hhas : has name method with
    | false =>
      refine iff_of_true ⟨_, _, s, .unknown (by rw [run_has_source, hhas])⟩ ?_
      rintro ⟨_, ⟨⟩, h | ⟨-, h⟩⟩
      · exact not_exceeded_of_not_has hhas _ h
      · exact not_exceeded_of_not_has hhas _ h
    | true =>
      have hthere : ((source now).has name method).run s = (true, s) := by
        rw [run_has_source, hhas]
      constructor
      · rintro ⟨made, fate, s', hhandled⟩
        rcases hhandled.unknown_or_asked with ⟨hunknown, -⟩ | ⟨s₁, r, -, hasked, -⟩
        · cases hthere.symm.trans hunknown
        · exact not_exceeds_of_asked hscalars hasked
      · intro hnot
        obtain ⟨made, r, s', hasked⟩ := asked_of_not_exceeds now s hscalars hnot
        exact ⟨made, _, s', .asked hthere hasked⟩

theorem resolve_returns_iff {d : Directive} (hread : d.IsRead) (l : Ledger KeyStream) :
    (∃ x, (resolve (source now) d).run l = .ok x) ↔ ¬ d.Exceeds := by
  rw [← exists_handled_iff now l.source hread]
  constructor
  · rintro ⟨⟨v, l'⟩, hrun⟩
    exact exists_handled_of_run hrun
  · rintro ⟨made, fate, s', hhandled⟩
    exact ⟨_, run_resolve_of_handled hhandled l.diagnostics⟩

end Directives

/-! ## Evaluation -/

/-- None of the directives that occur asks for what its method cannot do. -/
def Feasible (os : List Occurrence) : Prop :=
  ∀ d, .directive d ∈ os → ¬ d.Exceeds

theorem feasible_nil : Feasible [] := by
  intro d hd
  cases hd

theorem feasible_append {os os' : List Occurrence} :
    Feasible (os ++ os') ↔ Feasible os ∧ Feasible os' := by
  simp only [Feasible, List.mem_append, or_imp, forall_and]

/-- The resolution returns, from whatever ledger, exactly if what it comes to is feasible. -/
def Settled (α : Type) (os : List Occurrence) (r : Resolving KeyStream α) : Prop :=
  ∀ l, (∃ x, r.run l = .ok x) ↔ Feasible os

theorem traced_settled (now : Calendar.Instant) : Traced (source now) Settled where
  pure a l := iff_of_true ⟨_, rfl⟩ feasible_nil
  bind {_ _ os os' r k} hr hk l := by
    rw [feasible_append]
    constructor
    · rintro ⟨⟨b, l'⟩, hrun⟩
      obtain ⟨a, l₁, hfirst, hrest⟩ := run_bind_eq_ok_iff.1 hrun
      exact ⟨(hr l).1 ⟨_, hfirst⟩, (hk a l₁).1 ⟨_, hrest⟩⟩
    · rintro ⟨hos, hos'⟩
      obtain ⟨⟨a, l₁⟩, hfirst⟩ := (hr l).2 hos
      obtain ⟨⟨b, l'⟩, hrest⟩ := (hk a l₁).2 hos'
      exact ⟨_, run_bind_eq_ok_iff.2 ⟨a, l₁, hfirst, hrest⟩⟩
  resolve d hread l := by
    rw [resolve_returns_iff now hread]
    simp [Feasible]
  report name error l := by
    refine iff_of_true ⟨_, rfl⟩ fun d hd => ?_
    cases List.mem_singleton.1 hd

end Generator

/-! ## Templates -/

namespace Template

variable (now : Calendar.Instant) (text : List Char)

theorem error_ne_ok {α : Type} (halt : Halt) : ¬ ∃ a : α, Except.error halt = .ok a := by
  rintro ⟨a, ha⟩
  cases ha

theorem expandOnce_returns_iff (s : KeyStream) :
    (∃ r, (expandOnce (source now) text).run.run s = .ok r)
      ↔ TextUnrolls text ∧ Feasible (textOccurrences text) := by
  unfold TextUnrolls textOccurrences
  rcases hread : Placeholders.readTemplate text {} with ⟨e | v, p⟩
  · rw [run_expandOnce, hread]
    refine iff_of_true ⟨_, rfl⟩ ⟨fun _ _ h => ?_, feasible_nil⟩
    cases h
  · dsimp only
    cases ho : (Outlining.value (Outlining.string
        (p.blocks.length + Expanding.nestingAllowance)) v).run p with
    | none =>
      obtain ⟨halt, hrun, -⟩ := run_expandOnce_of_deep (source now) hread ho s
      rw [hrun]
      refine iff_of_false (error_ne_ok halt) fun h => ?_
      have hsome := h.1 v p rfl
      rw [ho] at hsome
      cases hsome
    | some op =>
      obtain ⟨o, p'⟩ := op
      have hsettled := Outline.traced_evaluate (traced_settled now) o ⟨s, []⟩
      rw [run_expandOnce_of_outline hread ho, ← hsettled]
      have hunrolls : ∀ w q, (.ok v, p) = ((.ok w, q) : Except TemplateError Json × Placeholders) →
          ((Outlining.value (Outlining.string
            (q.blocks.length + Expanding.nestingAllowance)) w).run q).isSome := by
        rintro w q ⟨⟩
        rw [ho]
        rfl
      rcases hrun : (o.evaluate (source now)).run ⟨s, []⟩ with halt | x
      · exact iff_of_false (error_ne_ok halt) fun h => error_ne_ok halt h.2
      · exact iff_of_true ⟨_, rfl⟩ ⟨hunrolls, x, rfl⟩

theorem expandTimes_returns_iff (n : Nat) (made : List Expanded) (s : KeyStream) :
    (∃ r, (expandTimes (source now) text n made).run.run s = .ok r)
      ↔ (n ≠ 0 → TextUnrolls text ∧ Feasible (textOccurrences text)) := by
  induction n generalizing made s with
  | zero => exact iff_of_true ⟨_, rfl⟩ fun h => absurd rfl h
  | succ n ih =>
    have honce := expandOnce_returns_iff now text s
    rw [expandTimes, run_bind]
    rcases hrun : (expandOnce (source now) text).run.run s with halt | ⟨e | x, s'⟩
    all_goals
      rw [hrun] at honce
      dsimp only
    · exact iff_of_false (error_ne_ok halt) fun h =>
        error_ne_ok halt (honce.2 (h (Nat.succ_ne_zero n)))
    · exact iff_of_true ⟨_, rfl⟩ fun _ => honce.1 ⟨_, rfl⟩
    · have hfeasible := honce.1 ⟨_, rfl⟩
      exact iff_of_true ((ih (x :: made) s').2 fun _ => hfeasible) fun _ => hfeasible

theorem feasible_rounds {os : List Occurrence} {n : Nat} :
    Feasible (List.replicate n os).flatten ↔ (n ≠ 0 → Feasible os) := by
  simp only [Feasible, List.mem_flatten, List.mem_replicate]
  constructor
  · exact fun h hn d hd => h d ⟨os, ⟨hn, rfl⟩, hd⟩
  · rintro h d ⟨_, ⟨hn, rfl⟩, hd⟩
    exact h hn d hd

theorem expand_settled (t : List Char) (s : KeyStream) :
    (∃ r, (expand (source now) t).run.run s = .ok r) ↔ Unrolls t ∧ Feasible (occurrences t) := by
  unfold expand Unrolls expandedText? occurrences
  rcases hplan : Plan.ofText? t with _ | ⟨c, text⟩ | ⟨text, n⟩
  · refine iff_of_true ⟨_, rfl⟩ ⟨fun _ h => ?_, feasible_nil⟩
    cases h
  · simp only [Option.some.injEq, forall_eq']
    exact expandOnce_returns_iff now text s
  · have hunrolls : (∀ text', (if n = 0 then none else some text) = some text' → TextUnrolls text')
        ↔ (n ≠ 0 → TextUnrolls text) := by
      by_cases hn : n = 0 <;> simp [hn]
    dsimp only
    rw [run_repeated, hunrolls, feasible_rounds, ← imp_and]
    cases hcheck : check text with
    | ok u => exact expandTimes_returns_iff now text n [] s
    | error e =>
      have hnothing : textOccurrences text = [] := by
        rw [check_eq] at hcheck
        unfold textOccurrences
        rcases hread : Placeholders.readTemplate text {} with ⟨_ | v, p⟩
        · rfl
        · rw [hread] at hcheck
          cases hcheck
      refine iff_of_true ⟨_, rfl⟩ fun _ => ⟨textUnrolls_of_check hcheck, ?_⟩
      rw [hnothing]
      exact feasible_nil

end Template

namespace Generator

/-- A call returns exactly if its arguments do not exceed the limit of its method; whatever it
samples is taken from a range or a list with a member. A directive that has been read is resolved
exactly if neither of its calls exceeds the limit, and a template is expanded exactly if that is so
of all directives that it comes to, and its blocks nest no deeper than is allowed. -/
theorem call_returns_iff (now : Calendar.Instant) (namespaceName method : String)
    {args : List Json} (hfinite : FiniteNumbers args) :
    (∀ s, (∃ r, (call now namespaceName method args).run.run s = .ok r)
        ↔ ¬ (limit namespaceName method).Exceeded args)
      ∧ (has namespaceName method = true →
        SoundUnless ((limit namespaceName method).Exceeded args)
          (call now namespaceName method args))
      ∧ (∀ (d : Directive) l, d.IsRead →
        ((∃ x, (resolve (source now) d).run l = .ok x) ↔ ¬ d.Exceeds))
      ∧ ∀ t s, (∃ r, (Template.expand (source now) t).run.run s = .ok r)
        ↔ Template.Unrolls t ∧ Feasible (Template.occurrences t) := by
  refine ⟨fun s => ⟨?_, fun hnot => ?_⟩, soundUnless_call now hfinite,
    fun d l hread => resolve_returns_iff now hread l, Template.expand_settled now⟩
  · rintro ⟨r, hr⟩ hexceeded
    obtain ⟨halt, hrun⟩ := run_call_of_exceeded now hexceeded s
    cases hrun.symm.trans hr
  · obtain ⟨r, s', hrun⟩ := run_call_of_not_exceeded now hfinite hnot s
    exact ⟨_, hrun⟩

/-- Bounds of an amount that are far below the greatest double. -/
theorem not_exceeded_price : ¬ (limit "commerce" "price").Exceeded
    [.object [("min", .ofInt 5), ("max", .ofInt 1000)]] := by
  have hasks : Asks [.object [("min", .ofInt 5), ("max", .ofInt 1000)]] 1 1000 (.ofInt 5)
      (.ofInt 1000) (5 : Int) (1000 : Int) :=
    ⟨⟨_, rfl, rfl, rfl⟩, Binary64.denotes_ofInt (by decide), Binary64.denotes_ofInt (by decide)⟩
  have hlarge : (100 * (1000 : Int) : ℚ) < Binary64.overflow := by
    have htwo := Binary64.two_lt_topUnit
    refine Binary64.lt_overflow ?_
    norm_num
    linarith
  rintro ⟨min, max, q, r, hasks', hwide⟩
  obtain ⟨-, -, rfl, rfl⟩ := hasks.unique hasks'
  have hpos := Binary64.overflow_pos
  rcases hwide.ends with ⟨hlow, -⟩ | ⟨-, hhigh⟩
  · norm_num at hlow
    linarith
  · exact absurd hlarge (not_lt.2 hhigh)

theorem call_returns_iff_price :
    FiniteNumbers [.object [("min", .ofInt 5), ("max", .ofInt 1000)]]
      ∧ (∃ r, (call ⟨0⟩ "commerce" "price"
          [.object [("min", .ofInt 5), ("max", .ofInt 1000)]]).run.run (.ofSeed 1) = .ok r)
      ∧ Directive.IsRead ⟨"commerce", some "price", [.ofInt 5]⟩
      ∧ ∃ x, (resolve (source ⟨0⟩) ⟨"commerce", some "price", [.ofInt 5]⟩).run ⟨.ofSeed 1, []⟩
          = .ok x := by
  have hfinite : FiniteNumbers [.object [("min", .ofInt 5), ("max", .ofInt 1000)]] :=
    finiteNumbers_options
      (by simpa using ⟨scalar_ofInt (by decide), scalar_ofInt (by decide)⟩)
  have hread : Directive.IsRead ⟨"commerce", some "price", [.ofInt 5]⟩ := by
    intro v hv
    obtain rfl := List.mem_singleton.1 hv
    exact ⟨['5'], rfl⟩
  obtain ⟨hcall, -, hresolve, -⟩ := call_returns_iff ⟨0⟩ "commerce" "price" hfinite
  refine ⟨hfinite, (hcall _).2 not_exceeded_price, hread, (hresolve _ _ hread).2 ?_⟩
  rintro ⟨_, ⟨⟩, h | ⟨htwice, -⟩⟩
  · exact not_exceeded_price h
  · cases htwice.1

/-- The upper bound of a price is finite, but not in cents: neither the call returns nor an
expansion. -/
theorem call_price_endless :
    (¬ ∀ now namespaceName method args s, FiniteNumbers args →
        ∃ r, (call now namespaceName method args).run.run s = .ok r)
      ∧ ¬ ∀ now t s, ∃ r, (Template.expand (source now) t).run.run s = .ok r := by
  constructor
  · intro h
    have hfinite : FiniteNumbers [ArgumentShape.minAndMax
        [.ofInt 1, Directive.readArgument "1e308".toList]] :=
      finiteNumbers_minAndMax (by
        simpa using ⟨scalar_ofInt (by decide), scalar_readArgument _⟩)
    obtain ⟨r, hr⟩ := h ⟨0⟩ "commerce" "price" _ (.ofSeed 1) hfinite
    have hstops : ((call ⟨0⟩ "commerce" "price" [ArgumentShape.minAndMax
        [.ofInt 1, Directive.readArgument "1e308".toList]]).run.run (.ofSeed 1)).toOption.isSome
          = false := by
      decide +kernel
    rw [hr] at hstops
    cases hstops
  · intro h
    obtain ⟨r, hr⟩ := h ⟨0⟩ "\x7b\"a\": @commerce.price(1, 1e308)\x7d".toList (.ofSeed 1)
    have hstops : ((Template.expand (source ⟨0⟩)
        "\x7b\"a\": @commerce.price(1, 1e308)\x7d".toList).run.run (.ofSeed 1)).toOption.isSome
          = false := by
      decide +kernel
    rw [hr] at hstops
    cases hstops

end Generator

end JsonTemplate
