import JsonTemplate.Proofs.Failure
import JsonTemplate.Proofs.Joining
import JsonTemplate.Proofs.Roots
import JsonTemplate.Proofs.Signs
import JsonTemplate.Proofs.Tokenless

/-!
# Templates without directives

A text without the sign of a directive is no more than JSON with other text around it: making it
plain JSON does nothing (`toPlainJson_of_notMem`), and its expansion is what the reader makes of its
root (`Template.expand_undirected`).
-/

namespace JsonTemplate

open Text Json

/-! ## Plain JSON -/

/-- A text without signs is plain already, and nothing is recorded. -/
theorem toPlainJson_of_notMem {t : List Char} (ht : '@' ∉ t) (p : Placeholders) :
    toPlainJson t p = (t, p) := by
  have hextract := RepeatBlock.extract_of_markless (RepeatBlock.marklessBefore_of_notMem [] ht) p
  rw [toPlainJson, hextract]
  exact (tokenless_of_notMem ht).quoteChains_eq p

/-! ## Values that stay -/

section Traversal

variable {S : Type} {m : Type → Type} [Monad m] [LawfulMonad m] {f : String → StateT S m Json}
  {s : S}

mutual

/-- A visit that changes neither its strings nor the state changes nothing. -/
theorem run_traverseStrings_of_fixed : ∀ v : Json,
    (∀ x ∈ v.values, (f x).run s = pure (.string x, s)) → (v.traverseStrings f).run s = pure (v, s)
  | .null, _ | .bool _, _ | .number _, _ => rfl
  | .string x, h => h x (List.mem_singleton_self x)
  | .array items, h => by simp [traverseStrings, run_traverseItems_of_fixed items h]
  | .object fields, h => by simp [traverseStrings, run_traverseFields_of_fixed fields h]

theorem run_traverseItems_of_fixed : ∀ items : List Json,
    (∀ x ∈ valuesOfItems items, (f x).run s = pure (.string x, s)) →
      (traverseItems f items).run s = pure (items, s)
  | [], _ => rfl
  | item :: rest, h => by
    have hitem := run_traverseStrings_of_fixed item fun x hx => h x (by simp [hx])
    have hrest := run_traverseItems_of_fixed rest fun x hx => h x (by simp [hx])
    simp [traverseItems, hitem, hrest]

theorem run_traverseFields_of_fixed : ∀ fields : Fields,
    (∀ x ∈ valuesOfFields fields, (f x).run s = pure (.string x, s)) →
      (traverseFields f fields).run s = pure (fields, s)
  | [], _ => rfl
  | (key, value) :: rest, h => by
    have hvalue := run_traverseStrings_of_fixed value fun x hx => h x (by simp [hx])
    have hrest := run_traverseFields_of_fixed rest fun x hx => h x (by simp [hx])
    simp [traverseFields, hvalue, hrest]

end

end Traversal

namespace Placeholders

theorem reinstate_empty (v : Json) : ({} : Placeholders).reinstate v = (v, {}) :=
  run_traverseStrings_of_fixed (m := Id) v fun _ _ => rfl

theorem namedBlock?_empty (x : String) : ({} : Placeholders).namedBlock? x = none := by
  rw [namedBlock?]
  cases Placeholder.blockName? x.toList <;> rfl

/-- A text without signs is read as it is. -/
theorem readTemplate_of_notMem {t : List Char} (ht : '@' ∉ t) :
    readTemplate t {} = ((Json.read t).mapError .badSyntax, {}) := by
  simp only [readTemplate, toPlainJson_of_notMem ht]
  cases Json.read t with
  | error e => rfl
  | ok v => simp only [reinstate_empty]; rfl

end Placeholders

variable {σ : Type}

/-- Without blocks a string without a sign stays. -/
theorem Expanding.run_expandString_of_notMem (source : ValueSource σ) {x : String}
    (hx : '@' ∉ x.toList) (l : Ledger σ) (depth : Nat) :
    (expandString source depth x).run ⟨l, {}⟩ = .ok (.string x, ⟨l, {}⟩) := by
  rw [run_expandString_of_unnamed (Placeholders.namedBlock?_empty x),
    resolveString_of_notMem source hx]
  rfl

/-! ## Roots -/

theorem Root.find?_eq_none_iff {t : List Char} : find? t = none ↔ '\x7b' ∉ t ∧ '[' ∉ t := by
  induction t with
  | nil => simp [find?]
  | cons c t ih =>
    rw [find?]
    cases hc : Container.ofOpening? c with
    | some container => rcases Container.eq_of_ofOpening? hc with rfl | rfl <;> simp
    | none =>
      have hne : c ≠ '\x7b' ∧ c ≠ '[' := by
        constructor <;> rintro rfl <;> cases hc
      simp [ih, hne.1.symm, hne.2.symm]

/-- A template without signs is not repeated. -/
theorem Plan.ofText?_of_notMem {t : List Char} (ht : '@' ∉ t) :
    ofText? t = (Root.find? t).map fun r => .once r.container r.split.1 := by
  rw [ofText?]
  cases hr : Root.find? t with
  | none => rfl
  | some r =>
    have hmem : ∀ c ∈ r.split.2, c ∈ t := by
      intro c hc
      have happ := Root.splitAfterLast_append r.container.closing r.text
      refine (Root.find?_suffix hr).subset ?_
      rw [← happ]
      exact List.mem_append_right _ hc
    have hmark : headMark? r.split.2 = none := by
      rw [headMark?]
      cases hm : RepeatBlock.splitMark? (trimStart r.split.2) with
      | none => rfl
      | some p =>
        obtain ⟨hsplit, -⟩ := RepeatBlock.splitMark?_eq_some_iff.1 hm
        refine absurd (hmem '@' ((trimStart_isSuffix _).subset ?_)) ht
        rw [hsplit, RepeatBlock.mark, RepeatBlock.markStart_eq]
        simp
    simp only [Option.map_some, hmark]
    cases r.container <;> rfl

namespace Template

section Undirected

variable {t : List Char} (ht : '@' ∉ t) {r : Root} (hr : Root.find? t = some r)
include ht hr

/-- The expansion of a text without signs is the first reading of its root. -/
theorem run_expand_of_notMem (source : ValueSource σ) (s : σ) :
    (expand source t).run.run s = match Json.read r.split.1 with
      | .error e => .ok (.error (.badSyntax e), s)
      | .ok v => ((Expanding.expandValue source v).run ⟨⟨s, []⟩, {}⟩).map
          fun (v, session) => (.ok ⟨v, session.diagnostics⟩, session.source) := by
  have hsplit : '@' ∉ r.split.1 := by
    intro hm
    refine ht ((Root.find?_suffix hr).subset ?_)
    rw [← Root.splitAfterLast_append r.container.closing r.text]
    exact List.mem_append_left _ hm
  rw [expand, Plan.ofText?_of_notMem ht, hr]
  simp only [Option.map_some, run, run_expandOnce, Placeholders.readTemplate_of_notMem hsplit]
  cases Json.read r.split.1 <;> rfl

theorem run_expand_of_noSigns {v : Json} (hread : Json.read r.split.1 = .ok v)
    (hv : ∀ x ∈ v.values, '@' ∉ x.toList) (source : ValueSource σ) (s : σ) :
    (expand source t).run.run s = .ok (.ok ⟨v, []⟩, s) := by
  have hwalk := run_traverseStrings_of_fixed (m := Except Halt) v fun x hx =>
    Expanding.run_expandString_of_notMem source (hv x hx) ⟨s, []⟩
      (({} : Placeholders).blocks.length + Expanding.nestingAllowance)
  rw [run_expand_of_notMem ht hr, hread]
  simp only [run_expandValue, Expanding.expandValueTo, hwalk]
  rfl

end Undirected

/-- A template without signs of directives is plain JSON. It is left as it is whatever the table,
and nothing is recorded. It fails for want of a root exactly if there is no opening brace or
bracket, and else with the reader's error for its root if there is one. If no string that is read
has such a sign either, its expansion is what is read, without diagnostics, and the source has not
been asked anything. -/
theorem expand_undirected (t : List Char) (ht : '@' ∉ t) :
    (∀ p, toPlainJson t p = (t, p)) ∧
      ∀ (σ : Type) (source : ValueSource σ) (s : σ),
        (∀ s', (expand source t).run.run s = .ok (.error .noRoot, s')
          ↔ ('\x7b' ∉ t ∧ '[' ∉ t) ∧ s' = s) ∧
        ∀ r, Root.find? t = some r →
          (∀ e, Json.read r.split.1 = .error e →
            (expand source t).run.run s = .ok (.error (.badSyntax e), s)) ∧
          ∀ v, Json.read r.split.1 = .ok v → (∀ x ∈ v.values, '@' ∉ x.toList) →
            (expand source t).run.run s = .ok (.ok ⟨v, []⟩, s)
              ∧ (expand source.watched t).run.run (s, []) = .ok (.ok ⟨v, []⟩, s, []) := by
  refine ⟨toPlainJson_of_notMem ht, fun σ source s => ⟨fun s' => ?_, fun r hr => ⟨fun e he => ?_,
    fun v hv hsigns => ⟨?_, ?_⟩⟩⟩⟩
  · have hfail : failure? t = some .noRoot ↔ Root.find? t = none := by
      rw [failure?, Plan.ofText?_of_notMem ht]
      cases Root.find? t with
      | none => simp
      | some r =>
        simp only [Option.map_some, reduceCtorEq, iff_false, check]
        cases Json.read (toPlainJson r.split.1 {}).1 <;> simp
    rw [run_expand_eq_error_iff, hfail, Root.find?_eq_none_iff]
  · rw [run_expand_of_notMem ht hr, he]
  · exact run_expand_of_noSigns ht hr hv hsigns source s
  · exact run_expand_of_noSigns ht hr hv hsigns source.watched (s, [])

/-- A placeholder and a sign that joins, in strings, with words around the root. -/
def prose : List Char :=
  "see [\"__EXPR_0__\", \"a + b\"], or not".toList

theorem expand_undirected_prose : '@' ∉ prose ∧
    ∃ r v, Root.find? prose = some r ∧ Json.read r.split.1 = .ok v ∧ (∀ x ∈ v.values, '@' ∉ x.toList)
      ∧ (expand (ValueSource.constant .null) prose).run.run () = .ok (.ok ⟨v, []⟩, ()) := by
  have hsign : '@' ∉ prose := by decide
  have hroot : Root.find? prose = some ⟨.array, "see ".toList, prose.drop 4⟩ := rfl
  have hread : Json.read (Root.split ⟨.array, "see ".toList, prose.drop 4⟩).1
      = .ok (.array [.string "__EXPR_0__", .string "a + b"]) := rfl
  have hsigns : ∀ x ∈ (Json.array [.string "__EXPR_0__", .string "a + b"]).values,
      '@' ∉ x.toList := by
    simp only [values_array, valuesOfItems_cons, values_string]
    decide
  have h := (expand_undirected prose hsign).2 Unit (.constant .null) ()
  exact ⟨hsign, _, _, hroot, hread, hsigns, ((h.2 _ hroot).2 _ hread hsigns).1⟩

end Template

end JsonTemplate
