import JsonTemplate.CommandLine.Options
import Mathlib.Tactic.SplitIfs

/-!
# Flags that say nothing about the result

An argument that asks for nothing but less or more reporting can be put among the others, or taken
out, and changes no option but `quiet` and `verbose` (`alike_of_insert`). Two readings of arguments
are followed side by side: what they have read so far differs in these flags alone (`Draft.Alike`).
-/

namespace JsonTemplate.CommandLine

/-- Options that differ in no more than how much is reported. -/
structure Options.Alike (o o' : Options) : Prop where
  input : o.input = o'.input
  output : o.output = o'.output
  seed : o.seed = o'.seed
  compact : o.compact = o'.compact

/-- An argument that asks for less or more reporting, or for both. -/
def IsReporting (arg : String) : Prop :=
  ∀ part ∈ partsOf arg, part = .flag .quiet ∨ part = .flag .verbose

example : ∀ arg ∈ ["-q", "--quiet", "-v", "--verbose", "-qv"], IsReporting arg := by
  simp [IsReporting, partsOf, longPart, shortParts, longFlag?, shortFlag?, List.lookup, Flag.name]

namespace Draft

/-- What two readings have come to that differ in flags for reporting. -/
structure Alike (d e : Draft) : Prop where
  file : d.file = e.file
  input : d.input = e.input
  output : d.output = e.output
  seed : d.seed = e.seed
  compact : d.flags.contains .compact = e.flags.contains .compact

variable {d e d' e' : Draft}

theorem Alike.refl (d : Draft) : d.Alike d :=
  ⟨rfl, rfl, rfl, rfl, rfl⟩

theorem Alike.finish (h : d.Alike e) : d.finish.Alike e.finish := by
  obtain ⟨hfile, hinput, houtput, hseed, hcompact⟩ := h
  constructor <;> simp only [Draft.finish, hfile, hinput, houtput, hseed, hcompact]

theorem Alike.addFile (h : d.Alike e) {path : String} (hd : d.addFile path = .ok d')
    (he : e.addFile path = .ok e') : d'.Alike e' := by
  unfold Draft.addFile at hd he
  rw [h.file] at hd
  split_ifs at hd he
  cases hd
  cases he
  exact { h with file := rfl }

theorem Alike.set (h : d.Alike e) {s : Setting} {value : String} (hd : d.set s value = .ok d')
    (he : e.set s value = .ok e') : d'.Alike e' := by
  unfold Draft.set at hd he
  cases s with
  | input =>
    dsimp only at hd he
    rw [h.input] at hd
    split_ifs at hd he
    cases hd
    cases he
    exact { h with input := rfl }
  | output =>
    dsimp only at hd he
    rw [h.output] at hd
    split_ifs at hd he
    cases hd
    cases he
    exact { h with output := rfl }
  | seed =>
    dsimp only at hd he
    rw [h.seed] at hd
    split_ifs at hd he
    cases hseed : readSeed? value.toList with
    | none =>
      rw [hseed] at hd
      cases hd
    | some n =>
      rw [hseed] at hd he
      cases hd
      cases he
      exact { h with seed := rfl }

theorem Alike.flag (h : d.Alike e) (f : Flag) :
    Alike { d with flags := f :: d.flags } { e with flags := f :: e.flags } where
  file := h.file
  input := h.input
  output := h.output
  seed := h.seed
  compact := by
    rw [List.contains_cons, List.contains_cons, h.compact]

/-- A flag for reporting in one of the drafts. -/
theorem Alike.flag_right (h : d.Alike e) {f : Flag} (hf : f = .quiet ∨ f = .verbose) :
    d.Alike { e with flags := f :: e.flags } where
  file := h.file
  input := h.input
  output := h.output
  seed := h.seed
  compact := by
    rw [List.contains_cons, h.compact]
    rcases hf with rfl | rfl <;> rfl

end Draft

open Draft

/-- The same to be done, but for flags for reporting. -/
inductive Progress.Alike : Progress → Progress → Prop
  | go {d e : Draft} (h : d.Alike e) : Alike (.go d) (.go e)
  | need {s : Setting} {d e : Draft} (h : d.Alike e) : Alike (.need s d) (.need s e)
  | answer {r : Request} : Alike (.answer r) (.answer r)

theorem except_bind_eq_ok {ε α β : Type} {x : Except ε α} {f : α → Except ε β} {b : β}
    (h : (x >>= f) = .ok b) : ∃ a, x = .ok a ∧ f a = .ok b := by
  cases x with
  | error e => cases h
  | ok a => exact ⟨a, rfl, h⟩

theorem alike_applyParts : ∀ {parts : List Part} {d e : Draft} {x y : Progress}, d.Alike e →
    applyParts d parts = .ok x → applyParts e parts = .ok y → x.Alike y
  | [], d, e, x, y, h, hx, hy => by
    cases hx
    cases hy
    exact .go h
  | .flag f :: rest, d, e, x, y, h, hx, hy => by
    cases f with
    | version =>
      cases hx
      cases hy
      exact .answer
    | help =>
      cases hx
      cases hy
      exact .answer
    | compact | quiet | verbose =>
      rw [applyParts] at hx hy
      split_ifs at hx hy
      · exact alike_applyParts (h.flag _) hx hy
      all_goals simp
  | .setting s value :: rest, d, e, x, y, h, hx, hy => by
    rw [applyParts] at hx hy
    obtain ⟨d', hd, hx⟩ := except_bind_eq_ok hx
    obtain ⟨e', he, hy⟩ := except_bind_eq_ok hy
    exact alike_applyParts (h.set hd he) hx hy
  | .pending s :: rest, d, e, x, y, h, hx, hy => by
    cases hx
    cases hy
    exact .need h
  | .file path :: rest, d, e, x, y, h, hx, hy => by
    rw [applyParts] at hx hy
    obtain ⟨d', hd, hx⟩ := except_bind_eq_ok hx
    obtain ⟨e', he, hy⟩ := except_bind_eq_ok hy
    exact alike_applyParts (h.addFile hd he) hx hy
  | .bad error :: rest, d, e, x, y, h, hx, hy => by cases hx

theorem alike_readFiles : ∀ {args : List String} {d e : Draft} {o o' : Options}, d.Alike e →
    readFiles d args = .ok (.expand o) → readFiles e args = .ok (.expand o') → o.Alike o'
  | [], d, e, o, o', h, hd, he => by
    cases hd
    cases he
    exact h.finish
  | path :: rest, d, e, o, o', h, hd, he => by
    rw [readFiles] at hd he
    obtain ⟨d', hfile, hd⟩ := except_bind_eq_ok hd
    obtain ⟨e', hfile', he⟩ := except_bind_eq_ok he
    exact alike_readFiles (h.addFile hfile hfile') hd he

/-- Reading on after an argument. -/
def readOn (p : Progress) (rest : List String) : Except UsageError Request :=
  match p with
  | .go d => readFrom d rest
  | .answer r => .ok r
  | .need s d =>
    match rest with
    | [] => .error (.missingValue s)
    | value :: rest =>
      if isValue value then do readFrom (← d.set s value) rest else .error (.missingValue s)

theorem readFrom_cons {arg : String} (h : arg ≠ "--") (d : Draft) (rest : List String) :
    readFrom d (arg :: rest) = applyParts d (partsOf arg) >>= fun p => readOn p rest := by
  rw [readFrom]
  · rcases applyParts d (partsOf arg) with e | p
    · rfl
    · cases p <;> rfl
  · exact h

theorem alike_readFrom : ∀ {args : List String} {d e : Draft} {o o' : Options}, d.Alike e →
    readFrom d args = .ok (.expand o) → readFrom e args = .ok (.expand o') → o.Alike o'
  | [], d, e, o, o', h, hd, he => by
    cases hd
    cases he
    exact h.finish
  | arg :: rest, d, e, o, o', h, hd, he => by
    by_cases harg : arg = "--"
    · subst harg
      exact alike_readFiles h hd he
    · rw [readFrom_cons harg] at hd he
      obtain ⟨x, hx, hd⟩ := except_bind_eq_ok hd
      obtain ⟨y, hy, he⟩ := except_bind_eq_ok he
      cases alike_applyParts h hx hy with
      | go h => exact alike_readFrom h hd he
      | answer =>
        cases hd
        cases he
        exact ⟨rfl, rfl, rfl, rfl⟩
      | need h =>
        cases rest with
        | nil => cases hd
        | cons value rest =>
          unfold readOn at hd he
          dsimp only at hd he
          split_ifs at hd he
          obtain ⟨d', hset, hd⟩ := except_bind_eq_ok hd
          obtain ⟨e', hset', he⟩ := except_bind_eq_ok he
          exact alike_readFrom (h.set hset hset') hd he

/-! ## One argument more -/

namespace IsReporting

variable {arg : String} (h : IsReporting arg)
include h

/-- It begins with a hyphen that something follows. -/
theorem exists_hyphen : ∃ c t, arg.toList = '-' :: c :: t := by
  unfold IsReporting partsOf at h
  split at h
  · rename_i t hlist
    exact ⟨'-', t, hlist⟩
  · rename_i c t _ hlist
    exact ⟨c, t, hlist⟩
  · rcases h _ (List.mem_singleton.2 rfl) with hpart | hpart <;> cases hpart

theorem not_isValue : isValue arg = false := by
  obtain ⟨c, t, hlist⟩ := h.exists_hyphen
  rw [isValue, hlist]
  rfl

theorem ne_hyphens : arg ≠ "--" := by
  rintro rfl
  rcases h _ (List.mem_singleton.2 rfl) with hpart | hpart <;> cases hpart

theorem alike_applyParts {d e : Draft} (halike : d.Alike e) {p : Progress}
    (happly : applyParts e (partsOf arg) = .ok p) : ∃ e', p = .go e' ∧ d.Alike e' := by
  unfold IsReporting at h
  generalize partsOf arg = parts at h happly
  induction parts generalizing e with
  | nil =>
    cases happly
    exact ⟨e, rfl, halike⟩
  | cons part rest ih =>
    obtain ⟨hpart, hrest⟩ := List.forall_mem_cons.1 h
    rcases hpart with rfl | rfl
    all_goals
      rw [applyParts] at happly
      · split_ifs at happly
        exact ih (halike.flag_right (by simp)) hrest happly
      all_goals simp

end IsReporting

/-- Arguments with one more that asks for nothing but less or more reporting: if both lists are
valid, they say the same but for that. The argument may stand anywhere before two hyphens. -/
theorem alike_of_insert {arg : String} (harg : IsReporting arg) {post : List String} :
    ∀ {pre : List String} {d e : Draft} {o o' : Options}, "--" ∉ pre → d.Alike e →
      readFrom d (pre ++ post) = .ok (.expand o) →
      readFrom e (pre ++ arg :: post) = .ok (.expand o') → o.Alike o'
  | [], d, e, o, o', hpre, h, hd, he => by
    rw [List.nil_append, readFrom_cons harg.ne_hyphens] at he
    obtain ⟨p, hp, he⟩ := except_bind_eq_ok he
    obtain ⟨e', rfl, halike⟩ := harg.alike_applyParts h hp
    exact alike_readFrom halike hd he
  | first :: pre, d, e, o, o', hpre, h, hd, he => by
    rw [List.mem_cons, not_or] at hpre
    obtain ⟨hfirst, hpre⟩ := hpre
    rw [List.cons_append, readFrom_cons (Ne.symm hfirst)] at hd he
    obtain ⟨x, hx, hd⟩ := except_bind_eq_ok hd
    obtain ⟨y, hy, he⟩ := except_bind_eq_ok he
    cases alike_applyParts h hx hy with
    | go h => exact alike_of_insert harg hpre h hd he
    | answer =>
      cases hd
      cases he
      exact ⟨rfl, rfl, rfl, rfl⟩
    | need h =>
      cases pre with
      | nil =>
        -- a value is missing, and the argument is none
        rw [List.nil_append, readOn, harg.not_isValue] at he
        cases he
      | cons value pre =>
        have hpre : "--" ∉ pre := fun hmem => hpre (List.mem_cons_of_mem _ hmem)
        rw [List.cons_append] at hd he
        unfold readOn at hd he
        dsimp only at hd he
        split_ifs at hd he
        obtain ⟨d', hset, hd⟩ := except_bind_eq_ok hd
        obtain ⟨e', hset', he⟩ := except_bind_eq_ok he
        exact alike_of_insert harg hpre (h.set hset hset') hd he

end JsonTemplate.CommandLine
