import JsonTemplate.Proofs.Failure
import JsonTemplate.Proofs.Indifference
import JsonTemplate.Proofs.Places
import JsonTemplate.Proofs.Termination

/-!
# Rounds

A text that is repeated `a + b` times is repeated `a` times and then `b` times, from the state that
the source is left in (`Template.run_repeated_add`). What is recorded of the later rounds does not
depend on what has been recorded before: a round reads before it asks anything, and a source that
records its calls only adds to them (`ValueSource.commutes_recorded`).
-/

namespace JsonTemplate

open Json

variable {σ α β : Type}

/-! ## Records -/

/-- From the state `f s` the source does what it does from `s`, and `f` is applied to the state
after it. -/
structure ValueSource.Commutes (source : ValueSource σ) (f : σ → σ) : Prop where
  has : ∀ namespaceName method s, (source.has namespaceName method).run (f s)
    = (((source.has namespaceName method).run s).1, f ((source.has namespaceName method).run s).2)
  call : ∀ namespaceName method args s, (source.call namespaceName method args).run.run (f s)
    = ((source.call namespaceName method args).run.run s).map fun (r, s) => (r, f s)

/-- Calls are recorded after those that were recorded before. -/
theorem ValueSource.commutes_recorded (source : ValueSource σ) (before : List Call) :
    source.recorded.Commutes fun (s, calls) => (s, before ++ calls) where
  has _ _ _ := rfl
  call namespaceName method args := fun (s, calls) => by
    rw [run_call_recorded, run_call_recorded]
    cases (source.call namespaceName method args).run.run s <;> simp [Except.map]

namespace Resolving

/-- From a changed state of the source the resolution gives the same, and the state after it is
changed in the same way. -/
def Commutes (f : σ → σ) (r : Resolving σ α) : Prop :=
  ∀ s ds, r.run ⟨f s, ds⟩ = (r.run ⟨s, ds⟩).map fun (a, l) => (a, ⟨f l.source, l.diagnostics⟩)

theorem closed_commutes {source : ValueSource σ} {f : σ → σ} (h : source.Commutes f) :
    Closed source fun _ r => r.Commutes f where
  pure _ _ _ := rfl
  bind {_ _ r k} hr hk s ds := by
    rw [run_bind, run_bind, hr]
    cases r.run ⟨s, ds⟩ with
    | error halt => rfl
    | ok x => exact hk x.1 x.2.source x.2.diagnostics
  report _ _ _ := rfl
  has namespaceName method s ds := by
    have hrun : ∀ s', (has source namespaceName method).run ⟨s', ds⟩
        = .ok (((source.has namespaceName method).run s').1,
          ⟨((source.has namespaceName method).run s').2, ds⟩) := fun _ => rfl
    rw [hrun, hrun, h.has]
    rfl
  call namespaceName method args s ds := by
    have hrun : ∀ s', (call source namespaceName method args).run ⟨s', ds⟩
        = ((source.call namespaceName method args).run.run s').map
          fun (r, s'') => (r, ⟨s'', ds⟩) := by
      intro s'
      simp only [call, StateT.run]
      cases (source.call namespaceName method args).run s' <;> rfl
    rw [hrun, hrun, h.call]
    cases (source.call namespaceName method args).run.run s <;> rfl

end Resolving

namespace Template

/-! ## Rounds one after the other -/

/-- The results of so many rounds. -/
def rounds (source : ValueSource σ) (t : List Char) : Nat → Expansion σ (List Expanded)
  | 0 => return []
  | n + 1 => do
    let r ← expandOnce source t
    return r :: (← rounds source t n)

theorem expandTimes_eq_rounds (source : ValueSource σ) (t : List Char) :
    ∀ (n : Nat) (made : List Expanded),
      expandTimes source t n made = do return concat (made.reverse ++ (← rounds source t n))
  | 0, made => by simp [expandTimes, rounds]
  | n + 1, made => by simp [expandTimes, rounds, expandTimes_eq_rounds source t n]

theorem rounds_add (source : ValueSource σ) (t : List Char) (b : Nat) : ∀ a : Nat,
    rounds source t (a + b) = do
      let xs ← rounds source t a
      return xs ++ (← rounds source t b)
  | 0 => by simp [rounds]
  | a + 1 => by
    rw [Nat.succ_add]
    simp [rounds, rounds_add source t b a]

theorem run_repeated_eq (source : ValueSource σ) (t : List Char) (n : Nat) :
    run source (.repeated t n) = match check t with
      | .error e => throw e
      | .ok _ => do return concat (← rounds source t n) := by
  rw [run, expandTimes_eq_rounds]
  cases check t <;> rfl

theorem concat_append (xs ys : List Expanded) :
    concat (xs ++ ys) = concat [concat xs, concat ys] := by
  simp [concat, itemsOf]

theorem run_repeated_append (source : ValueSource σ) (t : List Char) (a b : Nat) :
    run source (.repeated t (a + b)) = do
      let x ← run source (.repeated t a)
      let y ← run source (.repeated t b)
      return concat [x, y] := by
  rw [run_repeated_eq, run_repeated_eq, run_repeated_eq]
  cases check t with
  | error e => rfl
  | ok _ => simp [rounds_add, concat_append]

/-! ## Rounds from a changed state -/

/-- From a changed state the finished runs are the same, with their states changed. -/
def Commutes (f : σ → σ) (x : Expansion σ α) : Prop :=
  ∀ s, (x.run.run (f s)).toOption = (x.run.run s).toOption.map fun (r, s) => (r, f s)

theorem commutes_pure (f : σ → σ) (a : α) : Commutes f (pure a : Expansion σ α) :=
  fun _ => rfl

theorem commutes_throw (f : σ → σ) (e : TemplateError) : Commutes f (throw e : Expansion σ α) :=
  fun _ => rfl

theorem Commutes.bind {f : σ → σ} {x : Expansion σ α} {k : α → Expansion σ β} (hx : Commutes f x)
    (hk : ∀ a, Commutes f (k a)) : Commutes f (x >>= k) := by
  intro s
  have hs := hx s
  rw [run_bind, run_bind]
  rcases hrun : x.run.run s with halt | ⟨e | a, s'⟩
  · rw [hrun] at hs
    cases hrun' : x.run.run (f s) with
    | error halt' => rfl
    | ok r =>
      rw [hrun'] at hs
      cases hs
  all_goals
    rw [hrun] at hs
    rw [eq_ok_of_toOption hs]
  · rfl
  · exact hk a s'

section Source

variable {source : ValueSource σ} {f : σ → σ} (h : source.Commutes f) (t : List Char)
include h

/-- A round reads before it asks anything, and what it then evaluates is settled. -/
theorem commutes_expandOnce : Commutes f (expandOnce source t) := by
  intro s
  rcases hread : Placeholders.readTemplate t {} with ⟨e | v, p⟩
  · rw [run_expandOnce, run_expandOnce, hread]
    rfl
  · cases ho : (Outlining.value (Outlining.string
        (p.blocks.length + Expanding.nestingAllowance)) v).run p with
    | none =>
      obtain ⟨halt, hrun, -⟩ := run_expandOnce_of_deep source hread ho s
      obtain ⟨halt', hrun', -⟩ := run_expandOnce_of_deep source hread ho (f s)
      rw [hrun, hrun']
      rfl
    | some result =>
      rw [run_expandOnce_of_outline hread ho, run_expandOnce_of_outline hread ho,
        Outline.closed_evaluate (Resolving.closed_commutes h) result.1 s []]
      cases (result.1.evaluate source).run ⟨s, []⟩ <;> rfl

theorem commutes_rounds : ∀ n : Nat, Commutes f (rounds source t n)
  | 0 => commutes_pure f []
  | n + 1 =>
    (commutes_expandOnce h t).bind fun _ => (commutes_rounds n).bind fun _ => commutes_pure f _

theorem commutes_repeated (n : Nat) : Commutes f (run source (.repeated t n)) := by
  rw [run_repeated_eq]
  cases check t with
  | error e => exact commutes_throw f e
  | ok _ => exact (commutes_rounds h t n).bind fun _ => commutes_pure f _

end Source

/-- After other calls, a finished run gives the same, and its calls are recorded after them. -/
theorem run_repeated_recorded_iff (source : ValueSource σ) (t : List Char) (n : Nat) {s s' : σ}
    {before calls : List Call} {r : Except TemplateError Expanded} :
    (run source.recorded (.repeated t n)).run.run (s, before) = .ok (r, s', calls)
      ↔ ∃ made, (run source.recorded (.repeated t n)).run.run (s, []) = .ok (r, s', made)
        ∧ calls = before ++ made := by
  have hcommutes : ((run source.recorded (.repeated t n)).run.run (s, before)).toOption
      = ((run source.recorded (.repeated t n)).run.run (s, [])).toOption.map
        fun (r, s, calls) => (r, s, before ++ calls) := by
    simpa using commutes_repeated (source.commutes_recorded before) t n (s, [])
  rcases hrun : (run source.recorded (.repeated t n)).run.run (s, []) with halt | ⟨r', s₁, made⟩
  all_goals
    rw [hrun] at hcommutes
  · cases hrun' : (run source.recorded (.repeated t n)).run.run (s, before) with
    | error halt' => simp
    | ok x =>
      rw [hrun'] at hcommutes
      cases hcommutes
  · rw [eq_ok_of_toOption hcommutes]
    constructor
    · intro h
      cases h
      exact ⟨made, rfl, rfl⟩
    · rintro ⟨made', h, rfl⟩
      cases h
      rfl

theorem run_bind_eq_ok_iff {x : Expansion σ α} {k : α → Expansion σ β} {s s' : σ} {b : β} :
    (x >>= k).run.run s = .ok (.ok b, s')
      ↔ ∃ a s₁, x.run.run s = .ok (.ok a, s₁) ∧ (k a).run.run s₁ = .ok (.ok b, s') := by
  rw [run_bind]
  rcases x.run.run s with halt | ⟨e | a, s₁⟩ <;> simp

theorem run_repeated_eq_ok_iff (source : ValueSource σ) (t : List Char) (n : Nat) {s s' : σ}
    {r : Expanded} :
    (run source (.repeated t n)).run.run s = .ok (.ok r, s')
      ↔ check t = .ok () ∧ ∃ xs, (rounds source t n).run.run s = .ok (.ok xs, s')
        ∧ r = concat xs := by
  rw [run_repeated_eq]
  cases check t with
  | error e => exact iff_of_false (fun h => by cases h) (fun h => by cases h.1)
  | ok _ =>
    dsimp only
    rw [run_bind_eq_ok_iff]
    constructor
    · rintro ⟨xs, s₁, hxs, h⟩
      cases h
      exact ⟨rfl, xs, hxs, rfl⟩
    · rintro ⟨-, xs, hxs, rfl⟩
      exact ⟨xs, s', hxs, rfl⟩

/-! ## The number of items -/

/-- An array of plain JSON is read as an array with as many items. -/
theorem exists_array_of_readTemplate {t : List Char} {items : List Json}
    (hread : Json.read (toPlainJson t {}).1 = .ok (.array items)) :
    ∃ items' p, Placeholders.readTemplate t {} = (.ok (.array items'), p)
      ∧ items'.length = items.length := by
  have hrun : ∀ p : Placeholders, Placeholders.running.Run
      ((Json.array items).traverseStrings Placeholders.reinstateString) p
      (p.reinstate (.array items)).1 (p.reinstate (.array items)).2 := fun _ => rfl
  obtain ⟨items', hitems, hlength⟩ := Running.array_items (hrun (toPlainJson t {}).2)
  refine ⟨items', ((toPlainJson t {}).2.reinstate (.array items)).2, ?_, hlength⟩
  rw [← hitems]
  simp only [Placeholders.readTemplate, hread]

/-- A round gives as many items as the text has. -/
theorem exists_array_of_expandOnce {source : ValueSource σ} {t : List Char} {items : List Json}
    (hread : Json.read (toPlainJson t {}).1 = .ok (.array items)) {s s' : σ} {r : Expanded}
    (hrun : (expandOnce source t).run.run s = .ok (.ok r, s')) :
    ∃ ws, r.value = .array ws ∧ ws.length = items.length := by
  obtain ⟨items', p, hread, hlength⟩ := exists_array_of_readTemplate hread
  obtain ⟨w, session, hvalue, hr⟩ := exists_session_of_run hread hrun
  cases hr
  rw [run_expandValue] at hvalue
  obtain ⟨ws, rfl, hws⟩ := Running.array_items (r := Expanding.running σ) hvalue
  exact ⟨ws, rfl, hws.trans hlength⟩

theorem length_of_rounds {source : ValueSource σ} {t : List Char} {items : List Json}
    (hread : Json.read (toPlainJson t {}).1 = .ok (.array items)) : ∀ {n : Nat} {s s' : σ}
    {xs : List Expanded}, (rounds source t n).run.run s = .ok (.ok xs, s') →
      (xs.flatMap fun r => itemsOf r.value).length = n * items.length
  | 0, _, _, _, h => by
    cases h
    simp
  | n + 1, s, s', xs, h => by
    rw [rounds, run_bind_eq_ok_iff] at h
    obtain ⟨r, s₁, hr, h⟩ := h
    rw [run_bind_eq_ok_iff] at h
    obtain ⟨rs, s₂, hrs, h⟩ := h
    cases h
    obtain ⟨ws, hvalue, hlength⟩ := exists_array_of_expandOnce hread hr
    rw [List.flatMap_cons, List.length_append, length_of_rounds hread hrs, hvalue, itemsOf, hlength,
      Nat.succ_mul, Nat.add_comm]

theorem exists_array_of_repeated {source : ValueSource σ} {t : List Char} {items : List Json}
    (hread : Json.read (toPlainJson t {}).1 = .ok (.array items)) {n : Nat} {s s' : σ}
    {r : Except TemplateError Expanded}
    (hrun : (run source (.repeated t n)).run.run s = .ok (r, s')) :
    ∃ made ds, r = .ok ⟨.array made, ds⟩ ∧ made.length = n * items.length := by
  cases r with
  | error e =>
    have hcheck := ((run_repeated_eq_error_iff source).1 hrun).1
    rw [check, hread] at hcheck
    cases hcheck
  | ok r =>
    obtain ⟨-, xs, hxs, rfl⟩ := (run_repeated_eq_ok_iff source t n).1 hrun
    exact ⟨_, _, rfl, length_of_rounds hread hxs⟩

/-! ## Counts that are added -/

theorem run_repeated_recorded_append (source : ValueSource σ) (t : List Char) (a b : Nat) {s s' : σ}
    {calls : List Call} {r : Expanded} :
    (run source.recorded (.repeated t (a + b))).run.run (s, []) = .ok (.ok r, s', calls)
      ↔ ∃ xs ds s₁ calls₁ ys es calls₂,
        (run source.recorded (.repeated t a)).run.run (s, [])
          = .ok (.ok ⟨.array xs, ds⟩, s₁, calls₁)
        ∧ (run source.recorded (.repeated t b)).run.run (s₁, [])
          = .ok (.ok ⟨.array ys, es⟩, s', calls₂)
        ∧ r = ⟨.array (xs ++ ys), ds ++ es⟩ ∧ calls = calls₁ ++ calls₂ := by
  rw [run_repeated_append, run_bind_eq_ok_iff]
  constructor
  · rintro ⟨x, ⟨s₁, calls₁⟩, hx, h⟩
    obtain ⟨y, u, hy, h⟩ := run_bind_eq_ok_iff.1 h
    cases h
    obtain ⟨calls₂, hsecond, rfl⟩ := (run_repeated_recorded_iff source t b).1 hy
    obtain ⟨-, xs, -, rfl⟩ := (run_repeated_eq_ok_iff _ t a).1 hx
    obtain ⟨-, ys, -, rfl⟩ := (run_repeated_eq_ok_iff _ t b).1 hsecond
    exact ⟨_, _, s₁, calls₁, _, _, calls₂, hx, hsecond, by simp [concat, itemsOf], rfl⟩
  · rintro ⟨xs, ds, s₁, calls₁, ys, es, calls₂, hx, hy, rfl, rfl⟩
    refine ⟨_, _, hx, run_bind_eq_ok_iff.2 ⟨_, _, (run_repeated_recorded_iff source t b).2
      ⟨calls₂, hy, rfl⟩, ?_⟩⟩
    simp [concat, itemsOf]
    rfl

/-- One round of an array is the array. -/
theorem run_repeated_one {source : ValueSource σ} {c : Container} {t : List Char} {s s' : σ}
    {items : List Json} {ds : List Diagnostic}
    (h : (run source (.once c t)).run.run s = .ok (.ok ⟨.array items, ds⟩, s')) :
    (run source (.repeated t 1)).run.run s = .ok (.ok ⟨.array items, ds⟩, s') := by
  have hcheck : check t = .ok () := by
    cases hcheck : check t with
    | ok _ => rfl
    | error e =>
      rw [(run_once_eq_error_iff source).2 ⟨hcheck, rfl⟩] at h
      cases h
  refine (run_repeated_eq_ok_iff source t 1).2
    ⟨hcheck, [⟨.array items, ds⟩], ?_, by simp [concat, itemsOf]⟩
  rw [rounds, run_bind_eq_ok_iff]
  exact ⟨_, s', h, rfl⟩

/-- Counts add up. To repeat a text `a + b` times is to repeat it `a` times and then, from the state
that the source is left in, `b` times: items, diagnostics and recorded calls are appended. It fails
with every count or with none, and then nothing has been asked. Repeated once, a text that gives an
array gives that array. The items of a finished run are as many as those of the text, in which a
block counts for one, times the count. -/
theorem run_repeated_add (source : ValueSource σ) (base : List Char) (a b : Nat) :
    run source (.repeated base (a + b)) = (do
        let x ← run source (.repeated base a)
        let y ← run source (.repeated base b)
        return concat [x, y])
    ∧ (∀ (s s' : σ) (calls : List Call) (r : Expanded),
        (run source.recorded (.repeated base (a + b))).run.run (s, []) = .ok (.ok r, s', calls)
          ↔ ∃ xs ds s₁ calls₁ ys es calls₂,
            (run source.recorded (.repeated base a)).run.run (s, [])
              = .ok (.ok ⟨.array xs, ds⟩, s₁, calls₁)
            ∧ (run source.recorded (.repeated base b)).run.run (s₁, [])
              = .ok (.ok ⟨.array ys, es⟩, s', calls₂)
            ∧ r = ⟨.array (xs ++ ys), ds ++ es⟩ ∧ calls = calls₁ ++ calls₂)
    ∧ (∀ (n : Nat) (u u' : σ × List Inquiry) (e : TemplateError),
        (run source.watched (.repeated base n)).run.run u = .ok (.error e, u')
          ↔ check base = .error e ∧ u' = u)
    ∧ (∀ (c : Container) (s s' : σ) (items : List Json) (ds : List Diagnostic),
        (run source (.once c base)).run.run s = .ok (.ok ⟨.array items, ds⟩, s') →
          (run source (.repeated base 1)).run.run s = .ok (.ok ⟨.array items, ds⟩, s'))
    ∧ (∀ items : List Json, Json.read (toPlainJson base {}).1 = .ok (.array items) →
        ∀ (n : Nat) (s s' : σ) (r : Except TemplateError Expanded),
          (run source (.repeated base n)).run.run s = .ok (r, s') →
            ∃ made ds, r = .ok ⟨.array made, ds⟩ ∧ made.length = n * items.length) :=
  ⟨run_repeated_append source base a b,
    fun _ _ _ _ => run_repeated_recorded_append source base a b,
    fun _ _ _ _ => run_repeated_eq_error_iff source.watched,
    fun _ _ _ _ _ h => run_repeated_one h,
    fun _ hread _ _ _ _ hrun => exists_array_of_repeated hread hrun⟩

/-- A word that is asked for, and a block. -/
def wordAndBlock : List Char :=
  "[@x, [1] @repeat(2)]".toList

theorem run_repeated_add_wordAndBlock :
    Json.read (toPlainJson wordAndBlock {}).1
        = .ok (.array [.string "@x", .string "__REPEAT_ARRAY_0__"])
      ∧ (∃ items ds, (run (ValueSource.constant .null) (.once .array wordAndBlock)).run.run ()
          = .ok (.ok ⟨.array items, ds⟩, ())
        ∧ (run (ValueSource.constant .null) (.repeated wordAndBlock 1)).run.run ()
          = .ok (.ok ⟨.array items, ds⟩, ()))
      ∧ ∃ made ds, (run (ValueSource.constant .null) (.repeated wordAndBlock 3)).run.run ()
          = .ok (.ok ⟨.array made, ds⟩, ()) ∧ made.length = 3 * 2 := by
  obtain ⟨-, -, -, hone, hlength⟩ := run_repeated_add (ValueSource.constant .null) wordAndBlock 1 2
  have hplain : (toPlainJson wordAndBlock {}).1
      = "[\"@x\", \"__REPEAT_ARRAY_0__\"]".toList := by
    decide +kernel
  have hread : Json.read (toPlainJson wordAndBlock {}).1
      = .ok (.array [.string "@x", .string "__REPEAT_ARRAY_0__"]) := by
    rw [hplain]
    rfl
  refine ⟨hread, ?_, ?_⟩
  · have harray : ((run (ValueSource.constant .null) (.once .array wordAndBlock)).run.run ()
        ).toOption.map (fun r => r.1.toOption.map fun e => e.value.firstItem?.isSome)
          = some (some true) := by
      decide +kernel
    rcases hrun : (run (ValueSource.constant .null) (.once .array wordAndBlock)).run.run () with
      halt | ⟨e | ⟨v, ds⟩, s⟩
    all_goals
      rw [hrun] at harray
    · cases harray
    · cases harray
    · cases v with
      | array items => exact ⟨items, ds, rfl, hone .array () () items ds hrun⟩
      | _ => cases harray
  · have hfinished : ((run (ValueSource.constant .null) (.repeated wordAndBlock 3)).run.run ()
        ).toOption.isSome = true := by
      decide +kernel
    rcases hrun : (run (ValueSource.constant .null) (.repeated wordAndBlock 3)).run.run () with
      halt | ⟨r, s⟩
    · rw [hrun] at hfinished
      cases hfinished
    · obtain ⟨made, ds, rfl, hmade⟩ := hlength _ hread 3 () s r hrun
      exact ⟨made, ds, rfl, hmade⟩

end Template

end JsonTemplate
