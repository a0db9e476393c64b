import JsonTemplate.Proofs.NumberText
import JsonTemplate.Proofs.Reading
import JsonTemplate.Proofs.Tree

/-!
# Numbers within a text

Every character of a number is one of a few (`isNumeric`), and the containers around a number have
no part in how it is read: the reader comes to a draft that is as good as the number
(`Numeric.exists_draft`).
-/

namespace JsonTemplate

open Text Json Json.ReaderState

namespace Json

theorem NumberDraft.isNumeric_of_leave {d d' : NumberDraft} {b : Bool} {c : Char}
    (h : d.leave b c = .more d') : isNumeric c = true := by
  unfold leave at h
  split at h
  · rename_i hc
    simp [isNumeric, hc.1]
  · split at h
    · rename_i hc
      simp only [isMark, Bool.or_eq_true, beq_iff_eq] at hc
      rcases hc with rfl | rfl <;> rfl
    · cases h

theorem NumberDraft.isNumeric_of_step {d d' : NumberDraft} {c : Char}
    (h : d.step c = .more d') : isNumeric c = true := by
  by_cases hc : c.isDigit = true
  · simp [isNumeric, hc]
  · unfold step at h
    simp only [if_neg hc] at h
    split at h
    all_goals first | exact isNumeric_of_leave h | skip
    · cases h
    · cases h
    · split at h
      · rename_i hplus
        rw [hplus]
        rfl
      · split at h
        · rename_i hminus
          rw [hminus]
          rfl
        · cases h
    · cases h
    · cases h
    · cases h

/-- A number that may end does so at any character that is not its own. -/
theorem NumberDraft.step_eq_finished {d : NumberDraft} {n : JsonNumber} (h : d.finish = .ok n)
    {c : Char} (hc : isNumeric c = false) : d.step c = .finished := by
  simp only [isNumeric, Bool.or_eq_false_iff, beq_eq_false_iff_ne] at hc
  obtain ⟨⟨⟨⟨⟨hdigit, hpoint⟩, he⟩, hE⟩, -⟩, -⟩ := hc
  have hleave : ∀ b, d.leave b c = .finished := by
    intro b
    simp [leave, isMark, hpoint, he, hE]
  unfold finish at h
  unfold step
  split at h
  all_goals first | cases h | skip
  all_goals simp [*]

/-- A number is read to its last character, if no blank is in it. -/
theorem exists_draft_of_read {n : JsonNumber} : ∀ {t : List Char} {d : NumberDraft},
    (∀ c ∈ t, isJsonBlank c = false) → readFrom? ⟨[], .number d⟩ t = some (.number n) →
      ∃ d', d'.finish = .ok n ∧ (∀ c ∈ t, isNumeric c = true)
        ∧ ∀ frames, run ⟨frames, .number d⟩ t = .ok ⟨frames, .number d'⟩
  | [], d, _, h => by
    simp only [readFrom?, run, close] at h
    cases hd : d.finish with
    | error cause =>
      rw [hd] at h
      cases h
    | ok m =>
      rw [hd] at h
      cases h
      exact ⟨d, hd, by simp, fun _ => rfl⟩
  | c :: t, d, hb, h => by
    rw [readFrom?_cons] at h
    obtain ⟨s, hs, h⟩ := Option.bind_eq_some_iff.1 h
    simp only [step] at hs
    cases hstep : d.step c with
    | more d₁ =>
      rw [hstep] at hs
      cases hs
      obtain ⟨d', hd', hchars, hrun⟩ :=
        exists_draft_of_read (fun e he => hb e (List.mem_cons_of_mem _ he)) h
      refine ⟨d', hd', ?_, fun frames => ?_⟩
      · simpa [NumberDraft.isNumeric_of_step hstep] using hchars
      · simp only [run, step, hstep]
        exact hrun frames
    | failed cause =>
      rw [hstep] at hs
      cases hs
    | finished =>
      rw [hstep] at hs
      cases hd : d.finish with
      | error cause =>
        rw [hd] at hs
        cases hs
      | ok m =>
        simp only [hd, deliver, afterValue, hb c List.mem_cons_self, Bool.false_eq_true,
          if_false] at hs
        cases hs

end Json

namespace Numeric

theorem isNumeric_first (n : Numeric) : isNumeric n.first = true := by
  rcases n.start with h | h
  · rw [h]
    rfl
  · simp [isNumeric, h]

theorem first_ne (n : Numeric) {c : Char} (hc : isNumeric c = false) : n.first ≠ c := by
  rintro rfl
  rw [n.isNumeric_first] at hc
  cases hc

theorem isJsonBlank_first (n : Numeric) : isJsonBlank n.first = false := by
  simp [isJsonBlank, n.first_ne (c := ' ') rfl, n.first_ne (c := '\t') rfl,
    n.first_ne (c := '\n') rfl, n.first_ne (c := '\r') rfl]

theorem startValue_first (n : Numeric) (frames : List Frame) :
    startValue frames n.first = .ok ⟨frames, .number (.start n.first)⟩ := by
  simp [startValue, n.first_ne (c := '"') rfl, n.first_ne (c := '[') rfl,
    n.first_ne (c := '\x7b') rfl, n.first_ne (c := 'n') rfl, n.first_ne (c := 't') rfl,
    n.first_ne (c := 'f') rfl, n.start]

theorem exists_draft (n : Numeric) : ∃ d, d.finish = .ok n.value
    ∧ (∀ c ∈ n.rest, isNumeric c = true)
    ∧ ∀ frames, Json.run ⟨frames, .number (.start n.first)⟩ n.rest = .ok ⟨frames, .number d⟩ := by
  have h := n.isRead
  have hstep : step .initial n.first = .ok ⟨[], .number (.start n.first)⟩ := by
    simp [initial, step, n.isJsonBlank_first, n.startValue_first]
  rw [read_eq_ok_iff, readFrom?_cons, hstep] at h
  exact exists_draft_of_read n.noBlank h

theorem isNumeric_of_mem (n : Numeric) {c : Char} (hc : c ∈ n.first :: n.rest) :
    isNumeric c = true := by
  rcases List.mem_cons.1 hc with rfl | hc
  · exact n.isNumeric_first
  · obtain ⟨d, -, hchars, -⟩ := n.exists_draft
    exact hchars c hc

end Numeric

theorem Scalar.notMem_text (s : Scalar) {c : Char} (hc : c ∈ ['@', '"', '[', ']']) :
    c ∉ s.text := by
  simp only [List.mem_cons, List.not_mem_nil, or_false] at hc
  cases s with
  | null => rcases hc with rfl | rfl | rfl | rfl <;> decide
  | bool b => cases b <;> rcases hc with rfl | rfl | rfl | rfl <;> decide
  | number n =>
    intro hm
    have := n.isNumeric_of_mem hm
    rcases hc with rfl | rfl | rfl | rfl <;> cases this

end JsonTemplate
