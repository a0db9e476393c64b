import JsonTemplate.Proofs.Limits

/-!
# The table of methods and the catalogue

The table says which methods there are, the catalogue how each is answered. Both have the same
methods, each once, so that a method is unknown to a call exactly if it is not in the table. A
directive whose method is in the table is given a value, or it is reported for an argument
(`has_iff_known`).
-/

namespace JsonTemplate.Generator

open KeyStream Resolving

/-! ## Tables -/

/-- Where no key comes twice, what is found at a key is what stands there. -/
theorem lookup_eq_some_iff_mem {β : Type} : ∀ {entries : List (String × β)} {key : String} {v : β},
    (entries.map Prod.fst).Nodup → (entries.lookup key = some v ↔ (key, v) ∈ entries)
  | [], _, _, _ => by simp
  | (k, w) :: rest, key, v, hkeys => by
    obtain ⟨habsent, hrest⟩ := List.nodup_cons.1 hkeys
    rw [List.lookup_cons, List.mem_cons, Prod.mk.injEq]
    by_cases hk : key = k
    · subst hk
      have hnot : (key, v) ∉ rest := fun h => habsent (List.mem_map.2 ⟨_, h, rfl⟩)
      simp [hnot, eq_comm]
    · rw [beq_false_of_ne hk]
      simp [hk, lookup_eq_some_iff_mem hrest]

theorem methodTable_eq : methodTable = catalogue.map fun e => (e.1, e.2.map Prod.fst) :=
  rfl

theorem nodup_namespaces : (catalogue.map Prod.fst).Nodup := by
  decide

theorem nodup_names : ∀ e ∈ catalogue, (e.2.map Prod.fst).Nodup := by
  have htable : ∀ e ∈ methodTable, e.2.Nodup := by decide
  rw [methodTable_eq] at htable
  exact fun e he => htable _ (List.mem_map_of_mem he)

theorem nodup_methods : methods.Nodup := by
  decide +kernel

theorem find?_eq_some_iff {namespaceName method : String} {g : Method} :
    find? namespaceName method = some g
      ↔ ∃ named, (namespaceName, named) ∈ catalogue ∧ (method, g) ∈ named := by
  rw [find?, Option.bind_eq_some_iff]
  refine exists_congr fun named => ?_
  rw [lookup_eq_some_iff_mem nodup_namespaces]
  exact and_congr_right fun h => lookup_eq_some_iff_mem (nodup_names _ h)

theorem isSome_find?_iff {namespaceName method : String} :
    (find? namespaceName method).isSome ↔ (namespaceName, method) ∈ methods := by
  rw [Option.isSome_iff_exists, methods, methodTable_eq]
  simp only [find?_eq_some_iff, List.mem_flatMap, List.mem_map, Prod.mk.injEq]
  constructor
  · rintro ⟨g, named, he, hm⟩
    exact ⟨_, ⟨_, he, rfl⟩, method, List.mem_map_of_mem hm, rfl, rfl⟩
  · rintro ⟨_, ⟨e, he, rfl⟩, name, hname, rfl, rfl⟩
    obtain ⟨⟨_, g⟩, hm, rfl⟩ := List.mem_map.1 hname
    exact ⟨g, e.2, he, hm⟩

theorem has_iff_mem {namespaceName method : String} :
    has namespaceName method = true ↔ (namespaceName, method) ∈ methods := by
  simp only [has, methods, List.any_eq_true, List.mem_flatMap, List.mem_map, Prod.mk.injEq,
    Bool.and_eq_true, beq_iff_eq, List.contains_iff_mem]
  constructor
  · rintro ⟨e, he, rfl, hm⟩
    exact ⟨e, he, method, hm, rfl, rfl⟩
  · rintro ⟨e, he, name, hm, rfl, rfl⟩
    exact ⟨e, he, rfl, hm⟩

theorem has_iff_exists {namespaceName method : String} :
    has namespaceName method = true ↔ ∃ g, find? namespaceName method = some g := by
  rw [has_iff_mem, ← isSome_find?_iff, Option.isSome_iff_exists]

/-! ## Calls -/

section Calls

variable {now : Calendar.Instant} {namespaceName method : String} {args : List Json}
  {s s' : KeyStream}

theorem call_of_find? {g : Method} (h : find? namespaceName method = some g) :
    call now namespaceName method args = g now args := by
  rw [call, h]

theorem within_of_find? {g : Method} (h : find? namespaceName method = some g) :
    Within (limit namespaceName method) g := by
  obtain ⟨named, he, hm⟩ := find?_eq_some_iff.1 h
  exact within_catalogue _ he _ hm

theorem run_call_of_not_has (h : has namespaceName method = false) :
    (call now namespaceName method args).run.run s
      = .ok (.error (.unknownMethod namespaceName method), s) := by
  cases hfind : find? namespaceName method with
  | none =>
    rw [call, hfind]
    rfl
  | some g =>
    rw [has_iff_exists.2 ⟨g, hfind⟩] at h
    cases h

/-- A method that there is fails for an argument only. -/
theorem refuses_call (h : has namespaceName method = true) :
    Refuses (call now namespaceName method args) := by
  obtain ⟨g, hfind⟩ := has_iff_exists.1 h
  rw [call_of_find? hfind]
  exact (within_of_find? hfind).refuses now args

theorem has_iff_of_run {r : Except SourceError Json}
    (h : (call now namespaceName method args).run.run s = .ok (r, s')) :
    has namespaceName method = true ↔ ∀ n m, r ≠ .error (.unknownMethod n m) := by
  constructor
  · rintro hhas n m rfl
    obtain ⟨text, htext⟩ := refuses_call hhas s _ s' h
    cases htext
  · intro hknown
    by_contra hnot
    rw [run_call_of_not_has (Bool.not_eq_true _ ▸ hnot)] at h
    cases h
    exact hknown _ _ rfl

theorem eq_of_run_unknownMethod {n m : String}
    (h : (call now namespaceName method args).run.run s = .ok (.error (.unknownMethod n m), s')) :
    n = namespaceName ∧ m = method ∧ s' = s := by
  have hnot : has namespaceName method = false := by
    by_contra hhas
    exact (has_iff_of_run h).1 (Bool.not_eq_false _ ▸ hhas) n m rfl
  rw [run_call_of_not_has hnot] at h
  cases h
  exact ⟨rfl, rfl, rfl⟩

/-- What is asked of the catalogue for a method that it has fails for an argument only. -/
theorem invalid_of_asked (hhas : has namespaceName method = true) {made : List Call}
    {e : SourceError}
    (h : Asked (source now) namespaceName method args s made (.error e) s') :
    ∃ text, e = .invalidArgument text := by
  generalize hr : Except.error e = r at h
  cases h with
  | answered => cases hr
  | failed hcall =>
    cases hr
    exact refuses_call hhas _ _ _ hcall
  | retried _ _ hagain =>
    subst hr
    exact refuses_call hhas _ _ _ hagain

theorem run_has_source :
    ((source now).has namespaceName method).run s = (has namespaceName method, s) :=
  rfl

/-- How a directive is reported for an argument. -/
def complaint (path text : String) : Diagnostic :=
  ⟨.sourceFailure, path,
    "Error calling " ++ path ++ ": " ++ (SourceError.invalidArgument text).message⟩

theorem resolve_of_has (hhas : has namespaceName method = true) {ds : List Diagnostic} {v : Json}
    {l : Ledger KeyStream}
    (h : (resolve (source now) ⟨namespaceName, some method, args⟩).run ⟨s, ds⟩ = .ok (v, l)) :
    l.diagnostics = ds ∨ ∃ text, v = .string (namespaceName ++ "." ++ method)
      ∧ l.diagnostics = ds ++ [complaint (namespaceName ++ "." ++ method) text] := by
  obtain ⟨made, fate, s', hhandled, rfl, rfl⟩ := run_resolve_eq_ok_iff.1 h
  rcases hhandled.unknown_or_asked with ⟨hunknown, -⟩ | ⟨s₁, r, -, hasked, rfl⟩
  · rw [run_has_source, hhas] at hunknown
    cases hunknown
  · cases r with
    | ok v =>
      left
      simp [Fate.ofResult, Fate.diagnostic?]
    | error e =>
      obtain ⟨text, rfl⟩ := invalid_of_asked hhas hasked
      refine .inr ⟨text, ?_, ?_⟩
      · simp [Fate.ofResult, Fate.result, Directive.path]
      · simp [Fate.ofResult, Fate.diagnostic?, complaint, Directive.called, Directive.path]

end Calls

/-- A method is in the table exactly if no call finds it unknown. A call that does names the method
and draws nothing; any other failure is for an argument. The table has each method once. A directive
whose method is in the table is reported for an argument, if at all. -/
theorem has_iff_known :
    (∀ now namespaceName method args s r s',
      (call now namespaceName method args).run.run s = .ok (r, s') →
        (has namespaceName method = true ↔ ∀ n m, r ≠ .error (.unknownMethod n m))
        ∧ (∀ n m, r = .error (.unknownMethod n m) →
          n = namespaceName ∧ m = method ∧ s' = s)
        ∧ ∀ e, has namespaceName method = true → r = .error e →
          ∃ text, e = .invalidArgument text)
    ∧ (∀ namespaceName method,
        methods.count (namespaceName, method) = if has namespaceName method then 1 else 0)
    ∧ ∀ now namespaceName method args s ds v l, has namespaceName method = true →
        (resolve (source now) ⟨namespaceName, some method, args⟩).run ⟨s, ds⟩ = .ok (v, l) →
          l.diagnostics = ds ∨ ∃ text, v = .string (namespaceName ++ "." ++ method)
            ∧ l.diagnostics = ds ++ [complaint (namespaceName ++ "." ++ method) text] := by
  refine ⟨fun now namespaceName method args s r s' h => ⟨has_iff_of_run h, ?_, ?_⟩, ?_,
    fun now namespaceName method args s ds v l hhas h => resolve_of_has hhas h⟩
  · rintro n m rfl
    exact eq_of_run_unknownMethod h
  · rintro e hhas rfl
    exact refuses_call hhas s e s' h
  · intro namespaceName method
    rw [nodup_methods.count]
    exact if_congr has_iff_mem.symm rfl rfl

/-- A method is known by the whole of its name, and the bounds of an integer may be crossed. -/
theorem has_iff_known_int : ∃ text s',
    (call ⟨0⟩ "number" "Int" []).run.run (.ofSeed 1)
        = .ok (.error (.unknownMethod "number" "Int"), .ofSeed 1)
      ∧ has "number" "Int" = false ∧ has "number" "int" = true
      ∧ methods.count ("number", "int") = 1
      ∧ (call ⟨0⟩ "number" "int" [.ofInt (-1)]).run.run (.ofSeed 1)
        = .ok (.error (.invalidArgument text), s') := by
  obtain ⟨hcalls, hcount, -⟩ := has_iff_known
  have hunknown : (call ⟨0⟩ "number" "Int" []).run.run (.ofSeed 1)
      = .ok (.error (.unknownMethod "number" "Int"), .ofSeed 1) := rfl
  have hmissing : has "number" "Int" = false := by
    by_contra hhas
    exact (hcalls _ _ _ _ _ _ _ hunknown).1.1 (Bool.not_eq_false _ ▸ hhas) _ _ rfl
  have hfails : (((call ⟨0⟩ "number" "int" [.ofInt (-1)]).run.run (.ofSeed 1)).toOption.map
      fun x => x.1.toOption.isSome) = some false := by
    decide +kernel
  rcases hrun : (call ⟨0⟩ "number" "int" [.ofInt (-1)]).run.run (.ofSeed 1) with
    halt | ⟨e | v, s'⟩
  all_goals rw [hrun] at hfails
  · cases hfails
  · obtain ⟨text, rfl⟩ := (hcalls _ _ _ _ _ _ _ hrun).2.2 e rfl rfl
    exact ⟨text, s', hunknown, hmissing, rfl, hcount _ _, rfl⟩
  · cases hfails

end JsonTemplate.Generator
