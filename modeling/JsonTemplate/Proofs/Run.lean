import JsonTemplate.Template

/-!
# Runs

What the parts of an expansion do to a session, and what an expansion of a whole text does to the
state of its source: reading comes first and asks nothing, so that an error shows in the reading
alone (`run_expandOnce`).
-/

namespace JsonTemplate

variable {σ α β : Type} {allowance : Nat}

theorem Resolving.run_bind (r : Resolving σ α) (k : α → Resolving σ β) (l : Ledger σ) :
    (r >>= k).run l = match r.run l with
      | .ok (a, l) => (k a).run l
      | .error h => .error h := by
  simp only [StateT.run_bind]
  cases r.run l <;> rfl

namespace Expanding

theorem run_updatePlaceholders (f : Placeholders → α × Placeholders) (s : Session σ) :
    (updatePlaceholders f).run s
      = .ok ((f s.placeholders).1, { s with placeholders := (f s.placeholders).2 }) :=
  rfl

theorem run_resolving (r : Resolving σ α) (s : Session σ) :
    (resolving r).run s = (r.run s.toLedger).map fun (a, l) => (a, { s with toLedger := l }) := by
  simp only [resolving, StateT.run]
  cases r s.toLedger <;> rfl

theorem run_bind (x : Expanding σ α) (f : α → Expanding σ β) (s : Session σ) :
    (x >>= f).run s = match x.run s with
      | .ok (a, s) => (f a).run s
      | .error h => .error h := by
  simp only [StateT.run_bind]
  cases x.run s <;> rfl

theorem run_expandJson (source : ValueSource σ) (t : List Char) (s : Session σ) :
    (expandJson source t allowance).run s
      = match Placeholders.readTemplate t s.placeholders with
        | (.error e, p) => .ok (.error e, { s with placeholders := p })
        | (.ok v, p) => ((expandValue source v allowance).run { s with placeholders := p }).map
            fun (v, s) => (.ok v, s) := by
  rw [expandJson, run_bind, readTemplate, run_updatePlaceholders]
  obtain ⟨r, p⟩ := Placeholders.readTemplate t s.placeholders
  cases r with
  | error e => rfl
  | ok v =>
    simp only [run_bind]
    cases (expandValue source v allowance).run { s with placeholders := p } <;> rfl

/-! ## Strings -/

theorem run_expandString_of_unnamed {source : ValueSource σ} {x : String} {s : Session σ}
    (h : s.placeholders.namedBlock? x = none) : ∀ depth,
      (expandString source depth x).run s
        = ((Resolving.resolveString source x).run s.toLedger).map fun (v, l) =>
          (v, { s with toLedger := l })
  | 0 | _ + 1 => by
    have hget : (get : Expanding σ (Session σ)).run s = .ok (s, s) := rfl
    rw [expandString, run_bind, hget]
    simp only [h]
    exact run_resolving _ s

theorem run_expandString_of_named {source : ValueSource σ} {x name : String} {block : RepeatBlock}
    {s : Session σ} (h : s.placeholders.namedBlock? x = some (name, block)) (depth : Nat) :
    (expandString source (depth + 1) x).run s
      = (expandBlock (expandString source depth) name block).run s := by
  have hget : (get : Expanding σ (Session σ)).run s = .ok (s, s) := rfl
  rw [expandString, run_bind, hget]
  simp only [h]

end Expanding

namespace Template

theorem run_bind (x : Expansion σ α) (f : α → Expansion σ β) (s : σ) :
    (x >>= f).run.run s = match x.run.run s with
      | .ok (.ok a, s) => (f a).run.run s
      | .ok (.error e, s) => .ok (.error e, s)
      | .error h => .error h := by
  simp only [ExceptT.run_bind, StateT.run_bind]
  rcases x.run.run s with h | ⟨r, s⟩
  · rfl
  · cases r <;> rfl

theorem run_expandValue (source : ValueSource σ) (v : Json) (session : Session σ) :
    (Expanding.expandValue source v allowance).run session
      = (Expanding.expandValueTo source
          (session.placeholders.blocks.length + allowance) v).run session := by
  have hget : (get : Expanding σ (Session σ)).run session = .ok (session, session) := rfl
  rw [Expanding.expandValue, Expanding.run_bind, hget]

theorem run_expandOnce (source : ValueSource σ) (t : List Char) (s : σ) :
    (expandOnce source t allowance).run.run s = match Placeholders.readTemplate t {} with
      | (.error e, _) => .ok (.error e, s)
      | (.ok v, p) => ((Expanding.expandValue source v allowance).run ⟨⟨s, []⟩, p⟩).map
          fun (v, session) => (.ok ⟨v, session.diagnostics⟩, session.source) := by
  have h : (expandOnce source t allowance).run.run s
      = match (Expanding.expandJson source t allowance).run { source := s } with
        | .ok (r, session) => .ok (r.map fun v => ⟨v, session.diagnostics⟩, session.source)
        | .error h => .error h := by
    simp only [expandOnce, ExceptT.run_mk, StateT.run]
    cases Expanding.expandJson source t allowance { source := s } <;> rfl
  rw [h, Expanding.run_expandJson]
  obtain ⟨r, p⟩ := Placeholders.readTemplate t {}
  cases r with
  | error e => rfl
  | ok v =>
    simp only
    cases (Expanding.expandValue source v allowance).run ⟨⟨s, []⟩, p⟩ <;> rfl

/-- A finished round gives what was read with its strings replaced. -/
theorem exists_session_of_run {source : ValueSource σ} {t : List Char} {v : Json}
    {p : Placeholders} (hread : Placeholders.readTemplate t {} = (.ok v, p)) {s : σ}
    {r : Except TemplateError Expanded × σ}
    (h : (expandOnce source t allowance).run.run s = .ok r) :
    ∃ w session, (Expanding.expandValue source v allowance).run ⟨⟨s, []⟩, p⟩ = .ok (w, session)
      ∧ r = (.ok ⟨w, session.diagnostics⟩, session.source) := by
  rw [run_expandOnce, hread] at h
  dsimp only at h
  rcases hv : (Expanding.expandValue source v allowance).run ⟨⟨s, []⟩, p⟩ with halt | ⟨w, session⟩
  · rw [hv] at h
    cases h
  · rw [hv] at h
    cases h
    exact ⟨w, session, rfl, rfl⟩

/-- The check of a text is its first reading. -/
theorem check_eq (t : List Char) :
    check t = match (Placeholders.readTemplate t {}).1 with
      | .ok _ => .ok ()
      | .error e => .error e := by
  simp only [check, Placeholders.readTemplate]
  cases Json.read (toPlainJson t {}).1 <;> rfl

end Template

end JsonTemplate
