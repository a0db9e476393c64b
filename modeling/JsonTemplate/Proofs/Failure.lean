import JsonTemplate.Proofs.Run
import JsonTemplate.ValueSource.Journal

/-!
# Failures

Whether a template fails, and with which error, is a function of its text (`failure?`): it has no
root, or its root is not JSON once the directives are set aside. A source is not asked anything in
an expansion that fails (`expand_eq_error_iff`), and a repeated text fails with every count if it
fails with one.
-/

namespace JsonTemplate

variable {σ : Type} {allowance : Nat}

namespace Template

/-- The error of a text that is no template. -/
def failure? (t : List Char) : Option TemplateError :=
  match Plan.ofText? t with
  | none => some .noRoot
  | some (.once _ text) | some (.repeated text _) =>
    match check text with
    | .error e => some e
    | .ok _ => none

theorem expandOnce_eq_error_iff (source : ValueSource σ) {t : List Char} {s s' : σ}
    {e : TemplateError} :
    (expandOnce source t allowance).run.run s = .ok (.error e, s')
      ↔ check t = .error e ∧ s' = s := by
  rw [run_expandOnce, check_eq]
  obtain ⟨r, p⟩ := Placeholders.readTemplate t {}
  cases r with
  | error e' => simp [eq_comm]
  | ok v =>
    simp only
    cases (Expanding.expandValue source v allowance).run ⟨⟨s, []⟩, p⟩ <;> simp [Except.map]

/-- A text that passed the check does not fail in any round. -/
theorem expandTimes_ne_error (source : ValueSource σ) {t : List Char} {e : TemplateError}
    (h : check t = .ok ()) : ∀ (n : Nat) (rounds : List Expanded) (s s' : σ),
      (expandTimes source t n rounds allowance).run.run s ≠ .ok (.error e, s')
  | 0, rounds, s, s' => by
    intro h
    cases h
  | n + 1, rounds, s, s' => by
    rw [expandTimes, run_bind]
    split
    · exact expandTimes_ne_error source h n _ _ s'
    · rename_i hr
      have := (expandOnce_eq_error_iff source).1 hr
      rw [h] at this
      simp at this
    · simp

theorem run_repeated_eq_error_iff (source : ValueSource σ) {base : List Char} {n : Nat}
    {s s' : σ} {e : TemplateError} :
    (run source (.repeated base n) allowance).run.run s = .ok (.error e, s')
      ↔ check base = .error e ∧ s' = s := by
  have hc : (ExceptT.mk (pure (check base)) : Expansion σ Unit).run.run s
      = .ok (check base, s) := rfl
  rw [run, run_bind, hc]
  cases h : check base with
  | error e' => simp [eq_comm]
  | ok u => simpa using expandTimes_ne_error source h n [] s s'

theorem run_once_eq_error_iff (source : ValueSource σ) {c : Container} {t : List Char}
    {s s' : σ} {e : TemplateError} :
    (run source (.once c t) allowance).run.run s = .ok (.error e, s')
      ↔ check t = .error e ∧ s' = s :=
  expandOnce_eq_error_iff source

theorem run_expand_eq_error_iff (source : ValueSource σ) {t : List Char} {s s' : σ}
    {e : TemplateError} :
    (expand source t allowance).run.run s = .ok (.error e, s') ↔ failure? t = some e ∧ s' = s := by
  unfold expand failure?
  rcases Plan.ofText? t with _ | ⟨c, text⟩ | ⟨base, n⟩
  · change Except.ok (Except.error TemplateError.noRoot, s) = .ok (.error e, s') ↔ _
    simp [eq_comm]
  · simp only [run_once_eq_error_iff]
    cases check text <;> simp
  · simp only [run_repeated_eq_error_iff]
    cases check base <;> simp

/-- An expansion fails exactly if the text does, with the error of the text, and then leaves the
source as it was, not having asked it anything. A repeated text fails with any count, nought
included, exactly if it is not JSON. -/
theorem expand_eq_error_iff (source : ValueSource σ) (t : List Char) (e : TemplateError) (s : σ) :
    (∀ s', (expand source t).run.run s = .ok (.error e, s') ↔ failure? t = some e ∧ s' = s) ∧
      (∀ s', (expand source.watched t).run.run (s, []) = .ok (.error e, s') → s' = (s, [])) ∧
      ∀ base n s', (run source (.repeated base n)).run.run s = .ok (.error e, s')
        ↔ check base = .error e ∧ s' = s := by
  refine ⟨fun s' => run_expand_eq_error_iff source, fun s' h => ?_,
    fun base n s' => run_repeated_eq_error_iff source⟩
  exact ((run_expand_eq_error_iff source.watched).1 h).2

end Template

end JsonTemplate
