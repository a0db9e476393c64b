import JsonTemplate.Proofs.Outline
import JsonTemplate.Proofs.Termination
import JsonTemplate.ValueSource.Journal

/-!
# Values are data

What is asked of a source, and what is reported, depends on its errors and on the methods it has,
but on none of the values that it gives. Two expansions of a text are followed side by side
(`Resolving.Alongside`): they ask the same and report the same up to the first question that the
sources answer differently, so that they do throughout if there is none
(`Template.expand_indifferent`).
-/

namespace JsonTemplate

variable {σ τ α β : Type}

/-- A question to a source, with all that its answer tells but a value. -/
inductive Exchange
  | has (namespaceName method : String) (answer : Bool)
  | call (c : Call) (error : Option SourceError)

namespace Exchange

/-- What is asked. -/
def inquiry : Exchange → Inquiry
  | .has namespaceName method _ => .has namespaceName method
  | .call c _ => .call c

/-- The method that is asked for and whether there is one, if that is asked. -/
def has? : Exchange → Option ((String × String) × Bool)
  | .has namespaceName method answer => some ((namespaceName, method), answer)
  | .call _ _ => none

/-- The call, if it is one. -/
def call? : Exchange → Option Call
  | .has .. => none
  | .call c _ => some c

/-- The error of a call, or that there was none. -/
def outcome? : Exchange → Option (Option SourceError)
  | .has .. => none
  | .call _ error => some error

/-- Two records part at a question that was answered in two ways. -/
def Parted (xs ys : List Exchange) : Prop :=
  ∃ before x y xs' ys', xs = before ++ x :: xs' ∧ ys = before ++ y :: ys'
    ∧ x.inquiry = y.inquiry ∧ x ≠ y

theorem Parted.extend {xs ys xs' ys' : List Exchange} (h : Parted xs ys) (hx : xs <+: xs')
    (hy : ys <+: ys') : Parted xs' ys' := by
  obtain ⟨before, x, y, us, vs, rfl, rfl, h⟩ := h
  obtain ⟨us', rfl⟩ := hx
  obtain ⟨vs', rfl⟩ := hy
  exact ⟨before, x, y, us ++ us', vs ++ vs', by simp, by simp, h⟩

/-- Two records at one place after the same beginning: they go on alike or part there. -/
theorem eq_or_parted (heard : List Exchange) {x y : Exchange} (h : x.inquiry = y.inquiry) :
    x = y ∨ Parted (heard ++ [x]) (heard ++ [y]) := by
  by_cases hxy : x = y
  · exact .inl hxy
  · exact .inr ⟨heard, x, y, [], [], rfl, rfl, h, hxy⟩

/-- Records part nowhere if the questions for a method have one answer in both where they are the
same, and the calls fail in both with one error or in neither, one by one. -/
theorem not_parted {xs ys : List Exchange}
    (hhas : ∀ (k : Nat) (m : String × String) (b c : Bool), (xs.filterMap has?)[k]? = some (m, b) →
      (ys.filterMap has?)[k]? = some (m, c) → b = c)
    (houtcome : ∀ (k : Nat) (e f : Option SourceError), (xs.filterMap outcome?)[k]? = some e →
      (ys.filterMap outcome?)[k]? = some f → e = f) : ¬ Parted xs ys := by
  rintro ⟨before, x, y, xs', ys', rfl, rfl, hinquiry, hne⟩
  apply hne
  cases x with
  | has namespaceName method answer =>
    cases y with
    | has namespaceName' method' answer' =>
      cases hinquiry
      rw [hhas (before.filterMap has?).length (namespaceName, method) answer answer'
        (by simp [has?]) (by simp [has?])]
    | call c error => cases hinquiry
  | call c error =>
    cases y with
    | has namespaceName method answer => cases hinquiry
    | call c' error' =>
      cases hinquiry
      rw [houtcome (before.filterMap outcome?).length error error' (by simp [outcome?])
        (by simp [outcome?])]

end Exchange

namespace ValueSource

/-- The error, if it is one. -/
def errorOf : Except SourceError Json → Option SourceError
  | .ok _ => none
  | .error e => some e

/-- The source with a record of all that is asked and of the answers but for the values, the oldest
first. -/
def overheard (source : ValueSource σ) : ValueSource (σ × List Exchange) where
  has namespaceName method := fun (s, heard) =>
    let (answer, s) := (source.has namespaceName method).run s
    (answer, s, heard ++ [.has namespaceName method answer])
  call namespaceName method args := ExceptT.mk fun (s, heard) => do
    let (answer, s) ← (source.call namespaceName method args).run.run s
    return (answer, s, heard ++ [.call ⟨namespaceName, method, args⟩ (errorOf answer)])

end ValueSource

namespace Resolving

/-- Two runs that have asked and reported the same. -/
def Level (l : Ledger (σ × List Exchange)) (m : Ledger (τ × List Exchange)) : Prop :=
  l.source.2 = m.source.2 ∧ l.diagnostics = m.diagnostics

/-- From level, `x` and `y` come to level with results that `R` relates, or they part. Neither takes
back what it has asked. -/
structure Alongside (R : α → α → Prop) (x : Resolving (σ × List Exchange) α)
    (y : Resolving (τ × List Exchange) α) : Prop where
  left : ∀ {l a l'}, x.run l = .ok (a, l') → l.source.2 <+: l'.source.2
  right : ∀ {m b m'}, y.run m = .ok (b, m') → m.source.2 <+: m'.source.2
  meet : ∀ {l m a l' b m'}, Level l m → x.run l = .ok (a, l') → y.run m = .ok (b, m') →
    R a b ∧ Level l' m' ∨ Exchange.Parted l'.source.2 m'.source.2

namespace Alongside

variable {R : α → α → Prop} {S : β → β → Prop} {x : Resolving (σ × List Exchange) α}
  {y : Resolving (τ × List Exchange) α}

theorem pure {a b : α} (h : R a b) :
    Alongside R (Pure.pure a : Resolving (σ × List Exchange) α)
      (Pure.pure b : Resolving (τ × List Exchange) α) where
  left hrun := by
    cases hrun
    exact List.prefix_rfl
  right hrun := by
    cases hrun
    exact List.prefix_rfl
  meet hlevel ha hb := by
    cases ha
    cases hb
    exact .inl ⟨h, hlevel⟩

/-- After parting, the continuations may be of results that have nothing to do with each other; each
of them still only adds to its record. -/
theorem bind (hx : Alongside R x y) (hR : ∀ a, R a a) {f : α → Resolving (σ × List Exchange) β}
    {g : α → Resolving (τ × List Exchange) β} (hf : ∀ a b, R a b → Alongside S (f a) (g b)) :
    Alongside S (x >>= f) (y >>= g) where
  left {l b l'} hrun := by
    rw [run_bind] at hrun
    split at hrun
    · rename_i a l₁ ha
      exact (hx.left ha).trans ((hf a a (hR a)).left hrun)
    · cases hrun
  right {m b m'} hrun := by
    rw [run_bind] at hrun
    split at hrun
    · rename_i a m₁ ha
      exact (hx.right ha).trans ((hf a a (hR a)).right hrun)
    · cases hrun
  meet {l m b l' c m'} hlevel hb hc := by
    rw [run_bind] at hb hc
    split at hb
    · rename_i a l₁ ha
      split at hc
      · rename_i a' m₁ ha'
        rcases hx.meet hlevel ha ha' with ⟨hrel, hlevel₁⟩ | hparted
        · exact (hf a a' hrel).meet hlevel₁ hb hc
        · exact .inr (hparted.extend ((hf a a (hR a)).left hb) ((hf a' a' (hR a')).right hc))
      · cases hc
    · cases hb

end Alongside

theorem alongside_report (d : Diagnostic) :
    Alongside Eq (report d : Resolving (σ × List Exchange) Unit)
      (report d : Resolving (τ × List Exchange) Unit) where
  left hrun := by
    cases hrun
    exact List.prefix_rfl
  right hrun := by
    cases hrun
    exact List.prefix_rfl
  meet hlevel ha hb := by
    cases ha
    cases hb
    exact .inl ⟨rfl, hlevel.1, congrArg (· ++ [d]) hlevel.2⟩

/-- Both are values, or both are one error. -/
def SameOutcome (r r' : Except SourceError Json) : Prop :=
  ValueSource.errorOf r = ValueSource.errorOf r'

theorem sameOutcome_refl (r : Except SourceError Json) : SameOutcome r r :=
  rfl

theorem SameOutcome.cases {r r' : Except SourceError Json} (h : SameOutcome r r') :
    (∃ e, r = .error e ∧ r' = .error e) ∨ ∃ v v', r = .ok v ∧ r' = .ok v' := by
  rcases r with e | v <;> rcases r' with e' | v'
  · cases h
    exact .inl ⟨e, rfl, rfl⟩
  · cases h
  · cases h
  · exact .inr ⟨v, v', rfl, rfl⟩

/-- What a call does to a ledger. -/
theorem run_call_overheard (source : ValueSource σ) (namespaceName method : String)
    (args : List Json) (l : Ledger (σ × List Exchange)) :
    (call source.overheard namespaceName method args).run l =
      ((source.call namespaceName method args).run.run l.source.1).map fun (r, s) =>
        (r, { l with source := (s, l.source.2
          ++ [.call ⟨namespaceName, method, args⟩ (ValueSource.errorOf r)]) }) := by
  obtain ⟨⟨s, heard⟩, diagnostics⟩ := l
  simp only [call, ValueSource.overheard, StateT.run, ExceptT.run_mk]
  cases (source.call namespaceName method args).run s <;> rfl

variable (a : ValueSource σ) (b : ValueSource τ)

theorem alongside_has (namespaceName method : String) :
    Alongside Eq (has a.overheard namespaceName method) (has b.overheard namespaceName method) where
  left hrun := by
    cases hrun
    exact List.prefix_append _ _
  right hrun := by
    cases hrun
    exact List.prefix_append _ _
  meet {l m _ _ _ _} hlevel ha hb := by
    cases ha
    cases hb
    dsimp only [ValueSource.overheard, StateT.run]
    rw [← hlevel.1]
    rcases Exchange.eq_or_parted l.source.2
      (x := .has namespaceName method (a.has namespaceName method l.source.1).1)
      (y := .has namespaceName method (b.has namespaceName method m.source.1).1) rfl with h | h
    · refine .inl ⟨congrArg (fun e => (Exchange.has? e).elim false Prod.snd) h, ?_, hlevel.2⟩
      exact congrArg (l.source.2 ++ [·]) h
    · exact .inr h

theorem alongside_call (namespaceName method : String) (args : List Json) :
    Alongside SameOutcome (call a.overheard namespaceName method args)
      (call b.overheard namespaceName method args) where
  left {l r l'} hrun := by
    rw [run_call_overheard] at hrun
    rcases hc : (a.call namespaceName method args).run.run l.source.1 with halt | ⟨r', s⟩
    · rw [hc] at hrun
      cases hrun
    · rw [hc] at hrun
      cases hrun
      exact List.prefix_append _ _
  right {l r l'} hrun := by
    rw [run_call_overheard] at hrun
    rcases hc : (b.call namespaceName method args).run.run l.source.1 with halt | ⟨r', s⟩
    · rw [hc] at hrun
      cases hrun
    · rw [hc] at hrun
      cases hrun
      exact List.prefix_append _ _
  meet {l m r l' r' m'} hlevel ha hb := by
    rw [run_call_overheard] at ha hb
    rcases hc : (a.call namespaceName method args).run.run l.source.1 with halt | ⟨r₁, s₁⟩
    · rw [hc] at ha
      cases ha
    rcases hd : (b.call namespaceName method args).run.run m.source.1 with halt | ⟨r₂, s₂⟩
    · rw [hd] at hb
      cases hb
    rw [hc] at ha
    rw [hd] at hb
    cases ha
    cases hb
    dsimp only
    rw [← hlevel.1]
    rcases Exchange.eq_or_parted l.source.2
      (x := .call ⟨namespaceName, method, args⟩ (ValueSource.errorOf r))
      (y := .call ⟨namespaceName, method, args⟩ (ValueSource.errorOf r')) rfl with h | h
    · refine .inl ⟨congrArg (fun e => (Exchange.outcome? e).getD none) h, ?_, hlevel.2⟩
      exact congrArg (l.source.2 ++ [·]) h
    · exact .inr h

/-- A second call depends on an error alone. -/
theorem alongside_callAdapted (namespaceName method : String) (args : List Json) :
    Alongside SameOutcome (callAdapted a.overheard namespaceName method args)
      (callAdapted b.overheard namespaceName method args) := by
  unfold callAdapted
  refine (alongside_call a b _ _ _).bind sameOutcome_refl fun r r' h => ?_
  obtain ⟨e, rfl, rfl⟩ | ⟨v, v', rfl, rfl⟩ := h.cases
  · dsimp only
    split
    · exact alongside_call a b _ _ _
    · exact .pure rfl
  · exact .pure rfl

/-- Any two results. -/
def Whatever (_ _ : α) : Prop :=
  True

theorem alongside_resolve (d : Directive) :
    Alongside Whatever (resolve a.overheard d) (resolve b.overheard d) := by
  unfold resolve
  split
  · unfold resolveQualified
    refine (alongside_has a b _ _).bind (fun _ => rfl) fun answer answer' h => ?_
    subst h
    split
    · refine (alongside_callAdapted a b _ _ _).bind sameOutcome_refl fun r r' h => ?_
      obtain ⟨e, rfl, rfl⟩ | ⟨v, v', rfl, rfl⟩ := h.cases
      · exact (alongside_report _).bind (fun _ => rfl) fun _ _ _ => .pure trivial
      · exact .pure trivial
    · exact (alongside_report _).bind (fun _ => rfl) fun _ _ _ => .pure trivial
  · unfold resolveName
    split
    · refine (alongside_call a b _ _ _).bind sameOutcome_refl fun r r' h => ?_
      obtain ⟨e, rfl, rfl⟩ | ⟨v, v', rfl, rfl⟩ := h.cases
      · exact (alongside_report _).bind (fun _ => rfl) fun _ _ _ => .pure trivial
      · exact .pure trivial
    · refine (alongside_report _).bind (fun _ => rfl) fun _ _ _ => ?_
      refine (alongside_call a b _ _ _).bind sameOutcome_refl fun r r' _ => ?_
      rcases r with e | v <;> rcases r' with e' | v' <;> exact .pure trivial

theorem alongside_segmentTexts : ∀ segments : List Segment,
    Alongside Whatever (segmentTexts a.overheard segments) (segmentTexts b.overheard segments)
  | [] => .pure trivial
  | segment :: rest => by
    have hsegment : Alongside Whatever (segmentText a.overheard segment)
        (segmentText b.overheard segment) := by
      cases segment with
      | literal s => exact .pure trivial
      | verbatim s => exact .pure trivial
      | directive d =>
        exact (alongside_resolve a b d).bind (fun _ => trivial) fun _ _ _ => .pure trivial
    refine hsegment.bind (fun _ => trivial) fun _ _ _ => ?_
    exact (alongside_segmentTexts rest).bind (fun _ => trivial) fun _ _ _ => .pure trivial

theorem alongside_resolveString (s : String) :
    Alongside Whatever (resolveString a.overheard s) (resolveString b.overheard s) := by
  unfold resolveString
  dsimp only
  split
  · exact alongside_resolve a b _
  · split
    · unfold resolveExpression
      split
      · exact alongside_resolve a b _
      · exact .pure trivial
      · exact (alongside_segmentTexts a b _).bind (fun _ => trivial) fun _ _ _ => .pure trivial
    · exact .pure trivial

end Resolving

namespace Outline

open Resolving

variable (a : ValueSource σ) (b : ValueSource τ)

mutual

theorem alongside_evaluate : ∀ o : Outline,
    Alongside Whatever (o.evaluate a.overheard) (o.evaluate b.overheard)
  | .null | .bool _ | .number _ => by
    rw [evaluate, evaluate]
    exact .pure trivial
  | .text s => by
    rw [evaluate, evaluate]
    exact alongside_resolveString a b s
  | .array items => by
    rw [evaluate, evaluate]
    exact (alongside_evaluateItems items).bind (fun _ => trivial) fun _ _ _ => .pure trivial
  | .object fields => by
    rw [evaluate, evaluate]
    exact (alongside_evaluateFields fields).bind (fun _ => trivial) fun _ _ _ => .pure trivial
  | .unread made name error => by
    rw [evaluate, evaluate]
    refine (alongside_evaluateItems made).bind (fun _ => trivial) fun _ _ _ => ?_
    exact (alongside_report _).bind (fun _ => rfl) fun _ _ _ => .pure trivial

theorem alongside_evaluateItems : ∀ os : List Outline,
    Alongside Whatever (evaluateItems a.overheard os) (evaluateItems b.overheard os)
  | [] => by
    rw [evaluateItems, evaluateItems]
    exact .pure trivial
  | o :: rest => by
    rw [evaluateItems, evaluateItems]
    refine (alongside_evaluate o).bind (fun _ => trivial) fun _ _ _ => ?_
    exact (alongside_evaluateItems rest).bind (fun _ => trivial) fun _ _ _ => .pure trivial

theorem alongside_evaluateFields : ∀ os : List (String × Outline),
    Alongside Whatever (evaluateFields a.overheard os) (evaluateFields b.overheard os)
  | [] => by
    rw [evaluateFields, evaluateFields]
    exact .pure trivial
  | (key, o) :: rest => by
    rw [evaluateFields, evaluateFields]
    refine (alongside_evaluate o).bind (fun _ => trivial) fun _ _ _ => ?_
    exact (alongside_evaluateFields rest).bind (fun _ => trivial) fun _ _ _ => .pure trivial

end

end Outline

/-! ## Templates -/

namespace Template

/-- The errors of a result, or what it reports. -/
def report (r : Except TemplateError Expanded) : Except TemplateError (List Diagnostic) :=
  r.map Expanded.diagnostics

/-- Two finished expansions that began with the same record: neither took anything back, and they
report the same with the same record, or they parted. -/
structure Follow (heard : List Exchange) (r : Except TemplateError Expanded × σ × List Exchange)
    (r' : Except TemplateError Expanded × τ × List Exchange) : Prop where
  left : heard <+: r.2.2
  right : heard <+: r'.2.2
  meet : report r.1 = report r'.1 ∧ r.2.2 = r'.2.2 ∨ Exchange.Parted r.2.2 r'.2.2

variable {a : ValueSource σ} {b : ValueSource τ} {text : List Char}

theorem follow_expandOnce {s : σ} {u : τ} {heard : List Exchange}
    {r : Except TemplateError Expanded × σ × List Exchange}
    {r' : Except TemplateError Expanded × τ × List Exchange}
    (ha : (expandOnce a.overheard text).run.run (s, heard) = .ok r)
    (hb : (expandOnce b.overheard text).run.run (u, heard) = .ok r') : Follow heard r r' := by
  rcases hr : Placeholders.readTemplate text {} with ⟨e | v, p⟩
  · rw [run_expandOnce, hr] at ha hb
    cases ha
    cases hb
    exact ⟨List.prefix_rfl, List.prefix_rfl, .inl ⟨rfl, rfl⟩⟩
  · obtain ⟨o, p', ho, w, l, hw, rfl⟩ := exists_outline_of_run hr ha
    obtain ⟨o', p'', ho', w', l', hw', rfl⟩ := exists_outline_of_run hr hb
    rw [ho] at ho'
    cases ho'
    have h := Outline.alongside_evaluate a b o
    refine ⟨h.left hw, h.right hw', ?_⟩
    rcases h.meet ⟨rfl, rfl⟩ hw hw' with ⟨-, hlevel⟩ | hparted
    · exact .inl ⟨congrArg Except.ok hlevel.2, hlevel.1⟩
    · exact .inr hparted

theorem report_concat {rounds rounds' : List Expanded}
    (h : rounds.map Expanded.diagnostics = rounds'.map Expanded.diagnostics) :
    (concat rounds).diagnostics = (concat rounds').diagnostics := by
  simp only [concat, List.flatMap_def, h]

theorem heard_isPrefix_expandTimes {source : ValueSource σ} : ∀ {n : Nat} {rounds : List Expanded}
    {s : σ × List Exchange} {r : Except TemplateError Expanded × σ × List Exchange},
    (expandTimes source.overheard text n rounds).run.run s = .ok r → s.2 <+: r.2.2
  | 0, rounds, s, r, h => by
    cases h
    exact List.prefix_rfl
  | n + 1, rounds, s, r, h => by
    rw [expandTimes, run_bind] at h
    rcases hr : (expandOnce source.overheard text).run.run s with halt | ⟨e | x, s₁⟩
    · rw [hr] at h
      cases h
    · have hround := (follow_expandOnce hr hr).left
      rw [hr] at h
      cases h
      exact hround
    · have hround := (follow_expandOnce hr hr).left
      rw [hr] at h
      exact hround.trans (heard_isPrefix_expandTimes h)

/-- Round by round: the rounds made so far have reported the same, or the two have parted. -/
theorem follow_expandTimes : ∀ {n : Nat} {rounds rounds' : List Expanded} {s : σ} {u : τ}
    {heard : List Exchange} {r : Except TemplateError Expanded × σ × List Exchange}
    {r' : Except TemplateError Expanded × τ × List Exchange},
    rounds.map Expanded.diagnostics = rounds'.map Expanded.diagnostics →
    (expandTimes a.overheard text n rounds).run.run (s, heard) = .ok r →
    (expandTimes b.overheard text n rounds').run.run (u, heard) = .ok r' → Follow heard r r'
  | 0, rounds, rounds', s, u, heard, r, r', hrounds, ha, hb => by
    cases ha
    cases hb
    refine ⟨List.prefix_rfl, List.prefix_rfl, .inl ⟨congrArg Except.ok (report_concat ?_), rfl⟩⟩
    rw [List.map_reverse, List.map_reverse, hrounds]
  | n + 1, rounds, rounds', s, u, heard, r, r', hrounds, ha, hb => by
    have hleft := heard_isPrefix_expandTimes ha
    have hright := heard_isPrefix_expandTimes hb
    refine ⟨hleft, hright, ?_⟩
    rw [expandTimes, run_bind] at ha hb
    rcases hx : (expandOnce a.overheard text).run.run (s, heard) with halt | ⟨e | x, s₁, heard₁⟩
    · rw [hx] at ha
      cases ha
    all_goals
      rcases hy : (expandOnce b.overheard text).run.run (u, heard) with halt | ⟨e' | y, u₁, heard₂⟩
      · rw [hy] at hb
        cases hb
    all_goals
      rw [hx] at ha
      rw [hy] at hb
      have hround := follow_expandOnce hx hy
    · cases ha
      cases hb
      exact hround.meet
    -- If one fails in a round that the other finishes, they have parted before.
    · cases ha
      rcases hround.meet with ⟨hreport, -⟩ | hparted
      · cases hreport
      · exact .inr (hparted.extend List.prefix_rfl (heard_isPrefix_expandTimes hb))
    · cases hb
      rcases hround.meet with ⟨hreport, -⟩ | hparted
      · cases hreport
      · exact .inr (hparted.extend (heard_isPrefix_expandTimes ha) List.prefix_rfl)
    · rcases hround.meet with ⟨hreport, hheard⟩ | hparted
      · cases hheard
        have hdiagnostics : x.diagnostics = y.diagnostics := Except.ok.inj hreport
        exact (follow_expandTimes (by simp [hrounds, hdiagnostics]) ha hb).meet
      · exact .inr (hparted.extend (heard_isPrefix_expandTimes ha) (heard_isPrefix_expandTimes hb))

theorem follow_run {plan : Plan} {s : σ} {u : τ} {heard : List Exchange}
    {r : Except TemplateError Expanded × σ × List Exchange}
    {r' : Except TemplateError Expanded × τ × List Exchange}
    (ha : (run a.overheard plan).run.run (s, heard) = .ok r)
    (hb : (run b.overheard plan).run.run (u, heard) = .ok r') : Follow heard r r' := by
  cases plan with
  | once container text => exact follow_expandOnce ha hb
  | repeated text count =>
    rw [run_repeated] at ha hb
    cases hcheck : check text with
    | error e =>
      rw [hcheck] at ha hb
      cases ha
      cases hb
      exact ⟨List.prefix_rfl, List.prefix_rfl, .inl ⟨rfl, rfl⟩⟩
    | ok checked =>
      rw [hcheck] at ha hb
      exact follow_expandTimes rfl ha hb

theorem follow_expand {t : List Char} {s : σ} {u : τ} {heard : List Exchange}
    {r : Except TemplateError Expanded × σ × List Exchange}
    {r' : Except TemplateError Expanded × τ × List Exchange}
    (ha : (expand a.overheard t).run.run (s, heard) = .ok r)
    (hb : (expand b.overheard t).run.run (u, heard) = .ok r') : Follow heard r r' := by
  unfold expand at ha hb
  cases hplan : Plan.ofText? t with
  | none =>
    rw [hplan] at ha hb
    cases ha
    cases hb
    exact ⟨List.prefix_rfl, List.prefix_rfl, .inl ⟨rfl, rfl⟩⟩
  | some plan =>
    rw [hplan] at ha hb
    exact follow_run ha hb

/-- Two sources that have the same methods, and whose calls fail with the same errors one by one,
get the same calls in the same order, and the same diagnostics are reported, whatever their calls
give. -/
theorem expand_indifferent (a : ValueSource σ) (b : ValueSource τ) (t : List Char) (s s' : σ)
    (u u' : τ) (ra rb : Except TemplateError Expanded) (as bs : List Exchange)
    (ha : (expand a.overheard t).run.run (s, []) = .ok (ra, s', as))
    (hb : (expand b.overheard t).run.run (u, []) = .ok (rb, u', bs))
    (hhas : ∀ (k : Nat) (m : String × String) (x y : Bool),
      (as.filterMap Exchange.has?)[k]? = some (m, x) →
      (bs.filterMap Exchange.has?)[k]? = some (m, y) → x = y)
    (houtcome : ∀ (k : Nat) (e f : Option SourceError),
      (as.filterMap Exchange.outcome?)[k]? = some e →
      (bs.filterMap Exchange.outcome?)[k]? = some f → e = f) :
    as.filterMap Exchange.call? = bs.filterMap Exchange.call? ∧ report ra = report rb := by
  rcases (follow_expand ha hb).meet with ⟨hreport, hheard⟩ | hparted
  · exact ⟨congrArg _ hheard, hreport⟩
  · exact absurd hparted (Exchange.not_parted hhas houtcome)

/-- What is heard of a finished expansion. -/
def heardIn (source : ValueSource Unit) (t : List Char) : Option (List Exchange) :=
  ((expand source.overheard t).run.run ((), [])).toOption.map fun r => r.2.2

theorem exists_run_of_heardIn {source : ValueSource Unit} {t : List Char} {heard : List Exchange}
    (h : heardIn source t = some heard) :
    ∃ r, (expand source.overheard t).run.run ((), []) = .ok (r, (), heard) := by
  unfold heardIn at h
  rcases hrun : (expand source.overheard t).run.run ((), []) with halt | ⟨r, ⟨⟩, heard'⟩
  · rw [hrun] at h
    cases h
  · rw [hrun] at h
    cases h
    exact ⟨r, rfl⟩

theorem expand_indifferent_constant : ∃ ra rb as bs,
    (expand (ValueSource.constant .null).overheard "[@x, \"a\" + @y.z]".toList).run.run ((), [])
      = .ok (ra, (), as)
    ∧ (expand (ValueSource.constant (.string "@z.w")).overheard
        "[@x, \"a\" + @y.z]".toList).run.run ((), []) = .ok (rb, (), bs)
    ∧ as.filterMap Exchange.call? = bs.filterMap Exchange.call? ∧ report ra = report rb := by
  have ha : (heardIn (.constant .null) "[@x, \"a\" + @y.z]".toList).map
      (fun heard => (heard.filterMap Exchange.has?, heard.filterMap Exchange.outcome?))
      = some ([(("y", "z"), false)], [none]) := by decide +kernel
  have hb : (heardIn (.constant (.string "@z.w")) "[@x, \"a\" + @y.z]".toList).map
      (fun heard => (heard.filterMap Exchange.has?, heard.filterMap Exchange.outcome?))
      = some ([(("y", "z"), false)], [none]) := by decide +kernel
  obtain ⟨as, has, hasked⟩ := Option.map_eq_some_iff.1 ha
  obtain ⟨bs, hbs, hasked'⟩ := Option.map_eq_some_iff.1 hb
  obtain ⟨ra, hra⟩ := exists_run_of_heardIn has
  obtain ⟨rb, hrb⟩ := exists_run_of_heardIn hbs
  refine ⟨ra, rb, as, bs, hra, hrb, expand_indifferent _ _ _ _ _ _ _ _ _ _ _ hra hrb ?_ ?_⟩
  · intro k m x y hx hy
    rw [← (Prod.mk.inj hasked').1] at hasked
    rw [(Prod.mk.inj hasked).1, hy] at hx
    cases hx
    rfl
  · intro k e f he hf
    rw [← (Prod.mk.inj hasked').2] at hasked
    rw [(Prod.mk.inj hasked).2, hf] at he
    cases he
    rfl

end Template

end JsonTemplate
