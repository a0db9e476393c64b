import JsonTemplate.Proofs.Run
import JsonTemplate.ValueSource.Journal
import Mathlib.Tactic.SplitIfs

/-!
# One directive

A directive is resolved by one call, or by a second one if its arguments were passed as they are and
failed. The relation `Handled` says which calls a source gets for a directive and what becomes of
it; that is what its resolution gives and reports (`Resolving.run_resolve_eq_ok_iff`), and what a
source records that keeps a record of its calls (`handled_recorded_iff`).
-/

namespace JsonTemplate

open Resolving

variable {σ α β : Type}

/-- What becomes of a directive. -/
inductive Fate
  /-- The last call gave a value. -/
  | value (v : Json)
  /-- The source does not have the method. -/
  | unknown
  /-- The last call failed. -/
  | failed (e : SourceError)
  /-- A name that is no generator, and the word that stands in for it. -/
  | word (v : Json)

/-- Some methods give times, of which the date is kept. -/
def dated (method : String) (v : Json) : Json :=
  if method ∈ ["recent", "future", "past", "soon", "birthdate"] then Calendar.dateOf v else v

theorem finish_ofMethod (method : String) (v : Json) :
    (ArgumentShape.ofMethod method).finish v = dated method v := by
  unfold ArgumentShape.ofMethod
  split_ifs with hrange hprice hpassword hstate hdays hbirthdate
  · rcases hrange with rfl | rfl <;> rfl
  · rw [hprice]
    rfl
  · rw [hpassword]
    rfl
  · rw [hstate]
    rfl
  · rcases hdays with rfl | rfl | rfl | rfl <;> rfl
  · rw [hbirthdate]
    rfl
  · have hkept : method ∉ ["recent", "future", "past", "soon", "birthdate"] := by
      simpa [hbirthdate] using hdays
    rw [dated, if_neg hkept]
    rfl

/-- The method that is called for a directive, as a report names it. -/
def Directive.called (d : Directive) : String :=
  match d.method with
  | some _ => d.path
  | none => "datatype.boolean"

namespace Fate

def ofResult : Except SourceError Json → Fate
  | .ok v => .value v
  | .error e => .failed e

/-- The value of a directive; one that has none falls back on its own name. -/
def result (d : Directive) : Fate → Json
  | .value v | .word v => v
  | .unknown | .failed _ => .string d.path

/-- What is reported of a directive. -/
def diagnostic? (d : Directive) : Fate → Option Diagnostic
  | .value _ => none
  | .unknown => some ⟨.unknownDirective, d.path, "Unknown method: " ++ d.path⟩
  | .failed e => some ⟨.sourceFailure, d.path, "Error calling " ++ d.called ++ ": " ++ e.message⟩
  | .word _ =>
    some ⟨.unknownVariable, d.path, "Unknown variable: " ++ d.path ++ ", using lorem.word"⟩

end Fate

/-- Whether arguments that fail are passed a second time, as options: the method has no shape of its
own, and there are arguments. -/
def PassedTwice (method : String) (args : List Json) : Prop :=
  ArgumentShape.ofMethod method = .positional ∧ args ≠ []

/-- The first call for a method. -/
def Call.adapted (namespaceName method : String) (args : List Json) : Call :=
  ⟨namespaceName, method, (ArgumentShape.ofMethod method).adapt args⟩

/-- The second call for a method: one object, with the first two arguments as far as there are. -/
def Call.asOptions (namespaceName method : String) (args : List Json) : Call :=
  ⟨namespaceName, method, [.object (["min", "max"].zip args)]⟩

/-- What a call gives, with the state after it. -/
def Call.Gives (source : ValueSource σ) (c : Call) (s : σ) (r : Except SourceError Json) (s' : σ) :
    Prop :=
  (source.call c.namespaceName c.method c.args).run.run s = .ok (r, s')

/-- How a method is called: with its arguments adapted, and once more if arguments that were passed
as they are fail. -/
inductive Asked (source : ValueSource σ) (namespaceName method : String) (args : List Json) :
    σ → List Call → Except SourceError Json → σ → Prop
  | answered {s s' : σ} {v : Json}
    (hcall : (Call.adapted namespaceName method args).Gives source s (.ok v) s') :
    Asked source namespaceName method args s [.adapted namespaceName method args]
      (.ok (dated method v)) s'
  | failed {s s' : σ} {e : SourceError}
    (hcall : (Call.adapted namespaceName method args).Gives source s (.error e) s')
    (honce : ¬ PassedTwice method args) :
    Asked source namespaceName method args s [.adapted namespaceName method args] (.error e) s'
  | retried {s s₁ s' : σ} {e : SourceError} {r : Except SourceError Json}
    (hcall : (Call.adapted namespaceName method args).Gives source s (.error e) s₁)
    (htwice : PassedTwice method args)
    (hagain : (Call.asOptions namespaceName method args).Gives source s₁ r s') :
    Asked source namespaceName method args s
      [.adapted namespaceName method args, .asOptions namespaceName method args] r s'

/-- How a source deals with a directive: the calls that it gets, and what becomes of the
directive. -/
inductive Handled (source : ValueSource σ) : Directive → σ → List Call → Fate → σ → Prop
  | unknown {namespaceName method : String} {args : List Json} {s s' : σ}
    (hhas : (source.has namespaceName method).run s = (false, s')) :
    Handled source ⟨namespaceName, some method, args⟩ s [] .unknown s'
  | asked {namespaceName method : String} {args : List Json} {s s₁ s' : σ} {made : List Call}
    {r : Except SourceError Json}
    (hhas : (source.has namespaceName method).run s = (true, s₁))
    (hasked : Asked source namespaceName method args s₁ made r s') :
    Handled source ⟨namespaceName, some method, args⟩ s made (.ofResult r) s'
  | boolean {args : List Json} {s s' : σ} {r : Except SourceError Json}
    (hcall : (Call.mk "datatype" "boolean" []).Gives source s r s') :
    Handled source ⟨"boolean", none, args⟩ s [⟨"datatype", "boolean", []⟩] (.ofResult r) s'
  | word {name : String} {args : List Json} {s s' : σ} {r : Except SourceError Json}
    (hname : name ≠ "boolean") (hcall : (Call.mk "lorem" "word" []).Gives source s r s') :
    Handled source ⟨name, none, args⟩ s [⟨"lorem", "word", []⟩]
      (.word (r.toOption.getD (.string name))) s'

/-- A directive with a method is unknown, or its method is called. -/
theorem Handled.unknown_or_asked {source : ValueSource σ} {namespaceName method : String}
    {args : List Json} {s s' : σ} {made : List Call} {fate : Fate}
    (h : Handled source ⟨namespaceName, some method, args⟩ s made fate s') :
    (source.has namespaceName method).run s = (false, s') ∧ made = [] ∧ fate = .unknown
      ∨ ∃ s₁ r, (source.has namespaceName method).run s = (true, s₁)
        ∧ Asked source namespaceName method args s₁ made r s' ∧ fate = .ofResult r := by
  cases h with
  | unknown hhas => exact .inl ⟨hhas, rfl, rfl⟩
  | asked hhas hasked => exact .inr ⟨_, _, hhas, hasked, rfl⟩

/-- The state after a result is put in another form. -/
theorem map_state_eq_ok_iff (f : σ → β) {x : Except Halt (α × σ)} {a : α} {u : β} :
    (x.map fun y => (y.1, f y.2)) = .ok (a, u) ↔ ∃ s, x = .ok (a, s) ∧ u = f s := by
  rcases x with halt | ⟨a', s⟩
  · simp [Except.map]
  · simp only [Except.map, Except.ok.injEq, Prod.mk.injEq]
    constructor
    · rintro ⟨rfl, rfl⟩
      exact ⟨s, ⟨rfl, rfl⟩, rfl⟩
    · rintro ⟨s', ⟨rfl, rfl⟩, rfl⟩
      exact ⟨rfl, rfl⟩

namespace Resolving

variable {source : ValueSource σ}

theorem run_bind_eq_ok_iff {r : Resolving σ α} {k : α → Resolving σ β} {l l' : Ledger σ} {b : β} :
    (r >>= k).run l = .ok (b, l')
      ↔ ∃ a l₁, r.run l = .ok (a, l₁) ∧ (k a).run l₁ = .ok (b, l') := by
  rw [run_bind]
  rcases r.run l with halt | ⟨a, l₁⟩
  · exact iff_of_false (fun h => by cases h) fun ⟨_, _, h, _⟩ => by cases h
  · exact ⟨fun h => ⟨a, l₁, rfl, h⟩, fun ⟨_, _, h, hk⟩ => by cases h; exact hk⟩

theorem run_report (d : Diagnostic) (l : Ledger σ) :
    (report d).run l = .ok ((), { l with diagnostics := l.diagnostics ++ [d] }) :=
  rfl

/-- A call leaves the diagnostics alone. -/
theorem run_call_eq_ok_iff {c : Call} {s : σ} {ds : List Diagnostic}
    {r : Except SourceError Json} {l : Ledger σ} :
    (call source c.namespaceName c.method c.args).run ⟨s, ds⟩ = .ok (r, l)
      ↔ ∃ s', c.Gives source s r s' ∧ l = ⟨s', ds⟩ := by
  have hrun : (call source c.namespaceName c.method c.args).run ⟨s, ds⟩
      = ((source.call c.namespaceName c.method c.args).run.run s).map
        fun x => (x.1, ⟨x.2, ds⟩) := by
    simp only [call, StateT.run]
    cases (source.call c.namespaceName c.method c.args).run s <;> rfl
  rw [hrun]
  exact map_state_eq_ok_iff fun s' : σ => (⟨s', ds⟩ : Ledger σ)

theorem run_callAdapted_eq_ok_iff {namespaceName method : String} {args : List Json} {s : σ}
    {ds : List Diagnostic} {r : Except SourceError Json} {l : Ledger σ} :
    (callAdapted source namespaceName method args).run ⟨s, ds⟩ = .ok (r, l)
      ↔ ∃ made s', Asked source namespaceName method args s made r s' ∧ l = ⟨s', ds⟩ := by
  have hfirst {r : Except SourceError Json} {l : Ledger σ} :
      (call source namespaceName method ((ArgumentShape.ofMethod method).adapt args)).run ⟨s, ds⟩
          = .ok (r, l)
        ↔ ∃ s', (Call.adapted namespaceName method args).Gives source s r s' ∧ l = ⟨s', ds⟩ :=
    run_call_eq_ok_iff (c := .adapted namespaceName method args)
  have hagain {s : σ} {r : Except SourceError Json} {l : Ledger σ} :
      (call source namespaceName method [ArgumentShape.minAndMax args]).run ⟨s, ds⟩ = .ok (r, l)
        ↔ ∃ s', (Call.asOptions namespaceName method args).Gives source s r s' ∧ l = ⟨s', ds⟩ :=
    run_call_eq_ok_iff (c := .asOptions namespaceName method args)
  have hguard : (ArgumentShape.ofMethod method = .positional ∧ !args.isEmpty)
      ↔ PassedTwice method args := by
    cases args <;> simp [PassedTwice]
  unfold callAdapted
  rw [run_bind_eq_ok_iff]
  constructor
  · rintro ⟨first, l₁, hcall, hrest⟩
    obtain ⟨s₁, hgives, rfl⟩ := hfirst.1 hcall
    cases first with
    | ok v =>
      dsimp only at hrest
      rw [finish_ofMethod] at hrest
      cases hrest
      exact ⟨_, s₁, .answered hgives, rfl⟩
    | error e =>
      dsimp only at hrest
      split at hrest
      · rename_i htwice
        obtain ⟨s₂, hsecond, rfl⟩ := hagain.1 hrest
        exact ⟨_, s₂, .retried hgives (hguard.1 htwice) hsecond, rfl⟩
      · rename_i honce
        cases hrest
        exact ⟨_, s₁, .failed hgives fun htwice => honce (hguard.2 htwice), rfl⟩
  · rintro ⟨made, s', hasked, rfl⟩
    cases hasked with
    | answered hcall =>
      refine ⟨_, _, hfirst.2 ⟨s', hcall, rfl⟩, ?_⟩
      dsimp only
      rw [finish_ofMethod]
      rfl
    | failed hcall honce =>
      refine ⟨_, _, hfirst.2 ⟨s', hcall, rfl⟩, ?_⟩
      dsimp only
      rw [if_neg fun htwice => honce (hguard.1 htwice)]
      rfl
    | retried hcall htwice hsecond =>
      refine ⟨_, _, hfirst.2 ⟨_, hcall, rfl⟩, ?_⟩
      dsimp only
      rw [if_pos (hguard.2 htwice)]
      exact hagain.2 ⟨s', hsecond, rfl⟩

theorem run_has (source : ValueSource σ) (namespaceName method : String) (s : σ)
    (ds : List Diagnostic) :
    (has source namespaceName method).run ⟨s, ds⟩
      = .ok (((source.has namespaceName method).run s).1,
        ⟨((source.has namespaceName method).run s).2, ds⟩) :=
  rfl

/-- A directive that has been handled is given its value and reported as often as its fate says. -/
theorem run_resolve_of_handled {d : Directive} {s s' : σ} {made : List Call} {fate : Fate}
    (h : Handled source d s made fate s') (ds : List Diagnostic) :
    (resolve source d).run ⟨s, ds⟩
      = .ok (fate.result d, ⟨s', ds ++ (fate.diagnostic? d).toList⟩) := by
  cases h with
  | unknown hhas =>
    unfold resolve resolveQualified
    dsimp only
    rw [run_bind, run_has, hhas]
    rfl
  | @asked namespaceName method args _ s₁ _ _ r hhas hasked =>
    have hcalls : (callAdapted source namespaceName method args).run ⟨s₁, ds⟩
        = .ok (r, ⟨s', ds⟩) :=
      run_callAdapted_eq_ok_iff.2 ⟨_, s', hasked, rfl⟩
    unfold resolve resolveQualified
    dsimp only
    rw [run_bind, run_has, hhas]
    dsimp only
    rw [if_pos rfl, run_bind, hcalls]
    cases r with
    | ok v => simp [Fate.ofResult, Fate.result, Fate.diagnostic?]; rfl
    | error e => rfl
  | @boolean _ _ _ r hcall =>
    have hrun : (call source "datatype" "boolean" []).run ⟨s, ds⟩ = .ok (r, ⟨s', ds⟩) :=
      (run_call_eq_ok_iff (c := ⟨"datatype", "boolean", []⟩)).2 ⟨s', hcall, rfl⟩
    rw [resolve, resolveName, if_pos rfl, run_bind, hrun]
    cases r with
    | ok v => simp [Fate.ofResult, Fate.result, Fate.diagnostic?]; rfl
    | error e => rfl
  | @word name _ _ _ r hname hcall =>
    have hrun (ds : List Diagnostic) :
        (call source "lorem" "word" []).run ⟨s, ds⟩ = .ok (r, ⟨s', ds⟩) :=
      (run_call_eq_ok_iff (c := ⟨"lorem", "word", []⟩)).2 ⟨s', hcall, rfl⟩
    rw [resolve, resolveName, if_neg hname, run_bind, run_report]
    dsimp only
    rw [run_bind, hrun]
    cases r <;> rfl

/-- A directive that is given a value is not reported. -/
theorem run_resolve_of_value {d : Directive} {s s' : σ} {made : List Call} {v : Json}
    (h : Handled source d s made (.value v) s') (ds : List Diagnostic) :
    (resolve source d).run ⟨s, ds⟩ = .ok (v, ⟨s', ds⟩) := by
  rw [run_resolve_of_handled h]
  simp [Fate.result, Fate.diagnostic?]

theorem exists_handled_of_run {d : Directive} {s : σ} {ds : List Diagnostic} {v : Json}
    {l : Ledger σ} (h : (resolve source d).run ⟨s, ds⟩ = .ok (v, l)) :
    ∃ made fate s', Handled source d s made fate s' := by
  obtain ⟨name, _ | method, args⟩ := d
  · unfold resolve resolveName at h
    dsimp only at h
    split at h
    · rename_i hname
      obtain rfl := hname
      obtain ⟨r, l₁, hcall, -⟩ := run_bind_eq_ok_iff.1 h
      obtain ⟨s', hgives, -⟩ := (run_call_eq_ok_iff (c := ⟨_, _, _⟩)).1 hcall
      exact ⟨_, _, s', .boolean hgives⟩
    · rename_i hname
      obtain ⟨_, l₁, hreport, h⟩ := run_bind_eq_ok_iff.1 h
      cases hreport
      obtain ⟨r, l₁, hcall, -⟩ := run_bind_eq_ok_iff.1 h
      obtain ⟨s', hgives, -⟩ := (run_call_eq_ok_iff (c := ⟨_, _, _⟩)).1 hcall
      exact ⟨_, _, s', .word hname hgives⟩
  · unfold resolve resolveQualified at h
    dsimp only at h
    rw [run_bind, run_has] at h
    rcases hhas : (source.has name method).run s with ⟨known, s₁⟩
    rw [hhas] at h
    cases known with
    | false => exact ⟨_, _, s₁, .unknown hhas⟩
    | true =>
      dsimp only at h
      rw [if_pos rfl] at h
      obtain ⟨r, l₁, hcalls, -⟩ := run_bind_eq_ok_iff.1 h
      obtain ⟨made, s', hasked, -⟩ := run_callAdapted_eq_ok_iff.1 hcalls
      exact ⟨made, _, s', .asked hhas hasked⟩

/-- What the resolution of a directive gives and reports. -/
theorem run_resolve_eq_ok_iff {d : Directive} {s : σ} {ds : List Diagnostic} {v : Json}
    {l : Ledger σ} :
    (resolve source d).run ⟨s, ds⟩ = .ok (v, l)
      ↔ ∃ made fate s', Handled source d s made fate s' ∧ v = fate.result d
        ∧ l = ⟨s', ds ++ (fate.diagnostic? d).toList⟩ := by
  constructor
  · intro h
    obtain ⟨made, fate, s', hhandled⟩ := exists_handled_of_run h
    rw [run_resolve_of_handled hhandled] at h
    cases h
    exact ⟨made, fate, s', hhandled, rfl, rfl⟩
  · rintro ⟨made, fate, s', hhandled, rfl, rfl⟩
    exact run_resolve_of_handled hhandled ds

end Resolving

/-! ## What is recorded -/

section Recorded

variable {source : ValueSource σ} {s : σ} {calls made : List Call}

theorem gives_recorded_iff {c : Call} {r : Except SourceError Json} {u : σ × List Call} :
    c.Gives source.recorded (s, calls) r u
      ↔ ∃ s', c.Gives source s r s' ∧ u = (s', calls ++ [c]) := by
  unfold Call.Gives
  rw [ValueSource.run_call_recorded]
  exact map_state_eq_ok_iff fun s' => (s', calls ++ [c])

theorem asked_recorded_iff {namespaceName method : String} {args : List Json}
    {r : Except SourceError Json} {u : σ × List Call} :
    Asked source.recorded namespaceName method args (s, calls) made r u
      ↔ ∃ s', Asked source namespaceName method args s made r s' ∧ u = (s', calls ++ made) := by
  constructor
  · intro h
    cases h with
    | answered hcall =>
      obtain ⟨s', hgives, rfl⟩ := gives_recorded_iff.1 hcall
      exact ⟨s', .answered hgives, rfl⟩
    | failed hcall honce =>
      obtain ⟨s', hgives, rfl⟩ := gives_recorded_iff.1 hcall
      exact ⟨s', .failed hgives honce, rfl⟩
    | retried hcall htwice hagain =>
      obtain ⟨s₁, hgives, rfl⟩ := gives_recorded_iff.1 hcall
      obtain ⟨s', hsecond, rfl⟩ := gives_recorded_iff.1 hagain
      exact ⟨s', .retried hgives htwice hsecond, by simp⟩
  · rintro ⟨s', h, rfl⟩
    cases h with
    | answered hcall => exact .answered (gives_recorded_iff.2 ⟨s', hcall, rfl⟩)
    | failed hcall honce => exact .failed (gives_recorded_iff.2 ⟨s', hcall, rfl⟩) honce
    | retried hcall htwice hagain =>
      exact .retried (gives_recorded_iff.2 ⟨_, hcall, rfl⟩) htwice
        (gives_recorded_iff.2 ⟨s', hagain, by simp⟩)

/-- A record of calls changes nothing, and the calls for a directive are added to it. -/
theorem handled_recorded_iff {d : Directive} {fate : Fate} {u : σ × List Call} :
    Handled source.recorded d (s, calls) made fate u
      ↔ ∃ s', Handled source d s made fate s' ∧ u = (s', calls ++ made) := by
  have hhas (namespaceName method : String) (b : Bool) (u : σ × List Call) :
      (source.recorded.has namespaceName method).run (s, calls) = (b, u)
        ↔ ∃ s', (source.has namespaceName method).run s = (b, s') ∧ u = (s', calls) := by
    change (((source.has namespaceName method).run s).1,
      ((source.has namespaceName method).run s).2, calls) = (b, u) ↔ _
    rcases (source.has namespaceName method).run s with ⟨b', s'⟩
    constructor
    · rintro ⟨⟩
      exact ⟨s', rfl, rfl⟩
    · rintro ⟨s'', ⟨⟩, rfl⟩
      rfl
  constructor
  · intro h
    cases h with
    | unknown hunknown =>
      obtain ⟨s', hmissing, rfl⟩ := (hhas _ _ _ _).1 hunknown
      exact ⟨s', .unknown hmissing, by simp⟩
    | asked hknown hasked =>
      obtain ⟨s₁, hthere, rfl⟩ := (hhas _ _ _ _).1 hknown
      obtain ⟨s', hcalls, rfl⟩ := asked_recorded_iff.1 hasked
      exact ⟨s', .asked hthere hcalls, rfl⟩
    | boolean hcall =>
      obtain ⟨s', hgives, rfl⟩ := gives_recorded_iff.1 hcall
      exact ⟨s', .boolean hgives, rfl⟩
    | word hname hcall =>
      obtain ⟨s', hgives, rfl⟩ := gives_recorded_iff.1 hcall
      exact ⟨s', .word hname hgives, rfl⟩
  · rintro ⟨s', h, rfl⟩
    cases h with
    | unknown hunknown => exact .unknown ((hhas _ _ _ _).2 ⟨s', hunknown, by simp⟩)
    | asked hknown hasked =>
      exact .asked ((hhas _ _ _ _).2 ⟨_, hknown, rfl⟩) (asked_recorded_iff.2 ⟨s', hasked, rfl⟩)
    | boolean hcall => exact .boolean (gives_recorded_iff.2 ⟨s', hcall, rfl⟩)
    | word hname hcall => exact .word hname (gives_recorded_iff.2 ⟨s', hcall, rfl⟩)

end Recorded

end JsonTemplate
