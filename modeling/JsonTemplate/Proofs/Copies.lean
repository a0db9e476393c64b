import Mathlib.Data.List.Induction
import JsonTemplate.Proofs.Excerpt
import JsonTemplate.Proofs.Renaming
import JsonTemplate.Proofs.Roots
import JsonTemplate.Proofs.Shapes
import JsonTemplate.Proofs.Usage

/-!
# The copies of a block

A block has as many copies as it says, or none: whether its text is JSON, and whether it has an
item, does not depend on the table that it is read with (`outcome_toPlainJson`), so that what shows
at the first copy shows at every other one (`Expanding.expandString_recorded`).
-/

namespace JsonTemplate

open Json RepeatBlock

variable {σ : Type}

/-! ## Recorded blocks -/

namespace Placeholders

/-- The blocks that reading a text adds to the table. -/
def recorded (p : Placeholders) (t : List Char) : List (String × RepeatBlock) :=
  (toPlainJson t p).2.blocks.drop p.blocks.length

theorem toPlainJson_blocks (t : List Char) (p : Placeholders) :
    (toPlainJson t p).2.blocks = (extract t p).2.blocks :=
  quoteChains_blocks _ _

theorem recorded_eq (p : Placeholders) (t : List Char) :
    p.recorded t = (Excerpt.ofText t).cuttings.mapIdx fun i c =>
      (Placeholder.blockName (p.nextBlock + i), c.block p.nextBlock) := by
  rw [recorded, toPlainJson_blocks, Excerpt.extract_eq, recordAll, List.drop_left]

theorem Numbered.recordAll {p : Placeholders} (hp : p.Numbered) (cuttings : List Cutting) :
    (p.recordAll cuttings).Numbered := by
  induction cuttings using List.reverseRecOn with
  | nil => rwa [recordAll_nil]
  | append_singleton cuttings c ih =>
    have := ih.recordBlock (c.block p.nextBlock)
    rwa [recordBlock_recordAll] at this

/-- Each cutting is found under its name. -/
theorem Numbered.block?_recordAll {p : Placeholders} (hp : p.Numbered) {c : Cutting} {i : Nat} :
    ∀ {cuttings : List Cutting}, cuttings[i]? = some c →
      (p.recordAll cuttings).block? (Placeholder.blockName (p.nextBlock + i))
        = some (c.block p.nextBlock) := by
  intro cuttings
  induction cuttings using List.reverseRecOn with
  | nil => simp
  | append_singleton cuttings d ih =>
    intro hi
    have hrecord := p.recordBlock_recordAll cuttings d
    rcases Nat.lt_or_ge i cuttings.length with hlt | hge
    · rw [List.getElem?_append_left hlt] at hi
      have := (Within.refl _).recordBlock (d.block p.nextBlock) _ _ (ih hi)
      rwa [hrecord] at this
    · rw [List.getElem?_append_right hge, List.getElem?_singleton] at hi
      split at hi
      · rename_i hzero
        cases hi
        have hlast : i = cuttings.length := by omega
        have := (hp.recordAll cuttings).block?_recordBlock (c.block p.nextBlock)
        rw [hrecord] at this
        rw [hlast]
        exact this
      · cases hi

/-- What is known of a recorded block. -/
theorem exists_of_mem_recorded {p : Placeholders} (hp : p.Numbered) {t : List Char} {name : String}
    {b : RepeatBlock} (h : (name, b) ∈ p.recorded t) :
    (toPlainJson t p).2.block? name = some b ∧ Markless b.template.toList
      ∧ ∃ u, b.template.toList = '[' :: u := by
  rw [recorded_eq, List.mem_mapIdx] at h
  obtain ⟨i, hi, heq⟩ := h
  cases heq
  have hc := List.getElem_mem hi
  have htext : ((Excerpt.ofText t).cuttings[i].block p.nextBlock).template.toList
      = Bit.textFrom p.nextBlock (Excerpt.ofText t).cuttings[i].template := String.toList_ofList
  rw [htext]
  refine ⟨?_, Excerpt.markless_of_mem t p.nextBlock hc, ?_⟩
  · rw [block?, toPlainJson_blocks, Excerpt.extract_eq]
    exact hp.block?_recordAll (List.getElem?_eq_getElem hi)
  · obtain ⟨u, hu⟩ := Excerpt.brackets_of_mem hc
    exact ⟨_, by rw [hu]; rfl⟩

end Placeholders

/-! ## Readings of a block -/

/-- A text without marks is JSON with every table or with none, and so for the number of its
items. -/
theorem outcome_toPlainJson {t : List Char} (ht : Markless t) (p q : Placeholders) :
    outcome (Json.read (toPlainJson t p).1) = outcome (Json.read (toPlainJson t q).1) := by
  rw [toPlainJson, toPlainJson, extract_of_markless ht, extract_of_markless ht]
  exact outcome_quoteChains t p q

/-- What begins with a bracket is an array. -/
theorem exists_array_of_read {u : List Char} (hu : Markless ('[' :: u)) {p : Placeholders}
    {v : Json} (h : Json.read (toPlainJson ('[' :: u) p).1 = .ok v) :
    ∃ items, v = .array items := by
  have hplain : (toPlainJson ('[' :: u) p).1 = '[' :: (quoteChains u p).1 := by
    rw [toPlainJson, extract_of_markless hu]
    dsimp only
    rw [quoteChains_eq, quoteChains_eq, Piece.cut_cons (by decide) (by decide)]
    rfl
  rw [hplain, read_eq_ok_iff, readFrom?_cons_iff] at h
  obtain ⟨s, hs, h⟩ := h
  have hs : ReaderState.startValue [] '[' = .ok s := hs
  have hbegun := ReaderState.begun?_startValue hs
  have hne : s ≠ .initial := by
    rintro rfl
    cases hbegun
  rw [begun?_of_readFrom? h hne] at hbegun
  cases v with
  | array items => exact ⟨items, rfl⟩
  | _ => cases hbegun

/-- With every table the text has the same kind of reading as with one. -/
theorem exists_items_of_read {u : List Char} (hu : Markless ('[' :: u)) {p : Placeholders}
    {item : Json} {items : List Json}
    (h : Json.read (toPlainJson ('[' :: u) p).1 = .ok (.array (item :: items)))
    (q : Placeholders) :
    ∃ item' items', Json.read (toPlainJson ('[' :: u) q).1 = .ok (.array (item' :: items')) := by
  have houtcome := outcome_toPlainJson hu q p
  rw [h] at houtcome
  cases hq : Json.read (toPlainJson ('[' :: u) q).1 with
  | error e => rw [hq] at houtcome; cases houtcome
  | ok v =>
    obtain ⟨items', rfl⟩ := exists_array_of_read hu hq
    rw [hq] at houtcome
    cases items' with
    | nil => cases houtcome
    | cons item' items' => exact ⟨item', items', rfl⟩

namespace Expanding

variable (source : ValueSource σ)

/-- The values are made one after the other, each of them from the first item of the text, read
anew. -/
inductive Copies (depth : Nat) (template : List Char) :
    List Json → Session σ → Session σ → Prop
  | nil (s : Session σ) : Copies depth template [] s s
  | cons {s s₁ s₂ : Session σ} {v item w : Json} {p : Placeholders} {ws : List Json}
    (hread : s.placeholders.readTemplate template = (.ok v, p)) (hitem : v.firstItem? = some item)
    (hwalk : (expandValueTo source depth item).run { s with placeholders := p } = .ok (w, s₁))
    (hrest : Copies depth template ws s₁ s₂) : Copies depth template (w :: ws) s s₂

variable {source} {depth : Nat} {template : List Char}

theorem copies_cons_iff {s s' : Session σ} {v item w : Json} {p : Placeholders} {ws : List Json}
    (hread : s.placeholders.readTemplate template = (.ok v, p)) (hitem : v.firstItem? = some item) :
    Copies source depth template (w :: ws) s s' ↔ ∃ s₁,
      (expandValueTo source depth item).run { s with placeholders := p } = .ok (w, s₁)
        ∧ Copies source depth template ws s₁ s' := by
  constructor
  · rintro (_ | ⟨hread', hitem', hwalk, hrest⟩)
    rw [hread] at hread'
    cases hread'
    rw [hitem] at hitem'
    cases hitem'
    exact ⟨_, hwalk, hrest⟩
  · rintro ⟨s₁, hwalk, hrest⟩
    exact .cons hread hitem hwalk hrest

variable (source depth template) in
theorem run_expandItem (s : Session σ) :
    (expandItem (expandString source depth) template).run s
      = match s.placeholders.readTemplate template with
        | (.error e, p) => .ok (.error e, { s with placeholders := p })
        | (.ok v, p) => match v.firstItem? with
          | none => .ok (.ok none, { s with placeholders := p })
          | some item => ((expandValueTo source depth item).run { s with placeholders := p }).map
              fun (w, s) => (.ok (some w), s) := by
  rw [expandItem, run_bind, readTemplate, run_updatePlaceholders]
  obtain ⟨r, p⟩ := s.placeholders.readTemplate template
  cases r with
  | error e => rfl
  | ok v =>
    simp only
    cases v.firstItem? with
    | none => rfl
    | some item =>
      simp only [run_bind, expandValueTo]
      cases (item.traverseStrings (expandString source depth)).run { s with placeholders := p } <;>
        rfl

variable (source depth) in
/-- If every reading has an item, all copies are made, or one of them stops the run. -/
theorem run_copies_iff (h : ∀ p : Placeholders, ∃ v item p', p.readTemplate template = (.ok v, p')
      ∧ v.firstItem? = some item) : ∀ (n : Nat) (made : List Json) (s s' : Session σ)
        (r : Except TemplateError (List Json)),
    (copies (expandItem (expandString source depth) template) n made).run s = .ok (r, s')
      ↔ ∃ ws, r = .ok (made.reverse ++ ws) ∧ ws.length = n ∧ Copies source depth template ws s s'
  | 0, made, s, s', r => by
    constructor
    · intro hrun
      cases hrun
      exact ⟨[], by simp, rfl, .nil s⟩
    · rintro ⟨ws, rfl, hlength, hcopies⟩
      obtain rfl := List.eq_nil_of_length_eq_zero hlength
      cases hcopies
      rw [List.append_nil]
      rfl
  | n + 1, made, s, s', r => by
    obtain ⟨v, item, p, hread, hitem⟩ := h s.placeholders
    have hmake := run_expandItem source depth template s
    simp only [hread, hitem] at hmake
    rw [copies, run_bind, hmake]
    cases hwalk : (expandValueTo source depth item).run { s with placeholders := p } with
    | error e =>
      constructor
      · intro hrun
        cases hrun
      · rintro ⟨ws, -, hlength, hcopies⟩
        obtain ⟨w, ws, rfl⟩ := List.exists_cons_of_length_eq_add_one hlength
        obtain ⟨s₁, hwalk', -⟩ := (copies_cons_iff hread hitem).1 hcopies
        rw [hwalk] at hwalk'
        cases hwalk'
    | ok x =>
      obtain ⟨w, s₁⟩ := x
      refine (run_copies_iff h n (w :: made) s₁ s' r).trans ?_
      constructor
      · rintro ⟨ws, rfl, rfl, hcopies⟩
        exact ⟨w :: ws, by simp, rfl, .cons hread hitem hwalk hcopies⟩
      · rintro ⟨ws, rfl, hlength, hcopies⟩
        obtain ⟨w', ws, rfl⟩ := List.exists_cons_of_length_eq_add_one hlength
        obtain ⟨s₁', hwalk', hrest⟩ := (copies_cons_iff hread hitem).1 hcopies
        rw [hwalk] at hwalk'
        cases hwalk'
        exact ⟨ws, by simp, Nat.succ.inj hlength, hrest⟩

theorem run_expandBlock (name : String) (b : RepeatBlock) (s : Session σ) :
    (expandBlock (expandString source depth) name b).run s
      = match (copies (expandItem (expandString source depth) b.template.toList) b.count []).run s
        with
        | .error e => .error e
        | .ok (.ok items, s) => .ok (.array items, s)
        | .ok (.error e, s) => .ok (.array [], { s with diagnostics := s.diagnostics
            ++ [⟨.blockFailure, name, "Could not parse repeat block: " ++ e.message⟩] }) := by
  rw [expandBlock, run_bind]
  cases (copies (expandItem (expandString source depth) b.template.toList) b.count []).run s with
  | error e => rfl
  | ok x =>
    obtain ⟨r, s⟩ := x
    cases r <;> rfl

/-- The first copy decides if the text has no item. -/
theorem run_copies_of_first {s s' : Session σ} {r : Except TemplateError (Option Json)} {n : Nat}
    (hn : n ≠ 0) (h : (expandItem (expandString source depth) template).run s = .ok (r, s')) :
    (∀ e, r = .error e →
      (copies (expandItem (expandString source depth) template) n []).run s = .ok (.error e, s'))
    ∧ (r = .ok none →
      (copies (expandItem (expandString source depth) template) n []).run s
        = .ok (.ok [], s')) := by
  obtain ⟨n, rfl⟩ := Nat.exists_eq_succ_of_ne_zero hn
  constructor
  · rintro e rfl
    rw [copies, run_bind, h]
    rfl
  · rintro rfl
    rw [copies, run_bind, h]
    rfl

end Expanding

namespace Placeholders

theorem readTemplate_of_error {p : Placeholders} {t : List Char} {e : Json.SyntaxError}
    (h : Json.read (toPlainJson t p).1 = .error e) :
    p.readTemplate t = (.error (.badSyntax e), (toPlainJson t p).2) := by
  simp only [readTemplate, h]

theorem readTemplate_of_ok {p : Placeholders} {t : List Char} {v : Json}
    (h : Json.read (toPlainJson t p).1 = .ok v) :
    p.readTemplate t
      = (.ok ((toPlainJson t p).2.reinstate v).1, ((toPlainJson t p).2.reinstate v).2) := by
  simp only [readTemplate, h]

end Placeholders

/-- A block that was recorded from a text is expanded, at any later time, to no copies or to all of
them; that it is still in the table is all that is asked of that time
(`Operation.within_of_history`). If the count is nought, nothing is even read. If its text is not
JSON, that is reported once, and if it has no item, nothing happens at all: the source is not asked,
be it one that keeps a record. Or else there are as many copies as it says, each of which is the
first item of the text, read anew and walked. Which of these is the case is the same with every
table. -/
theorem Expanding.expandString_recorded {source : ValueSource σ} {ops : List Operation} {s₀ : σ}
    {s₁ : Session σ} (h₁ : (Operation.history source ops).run { source := s₀ } = .ok ((), s₁))
    {t : List Char} {name : String} {b : RepeatBlock} (hb : (name, b) ∈ s₁.placeholders.recorded t)
    {s : Session σ} (hs : (toPlainJson t s₁.placeholders).2.Within s.placeholders) (depth : Nat) :
    (∀ p q : Placeholders, outcome (Json.read (toPlainJson b.template.toList p).1)
        = outcome (Json.read (toPlainJson b.template.toList q).1))
      ∧ (b.count = 0 → (expandString source (depth + 1) (Placeholder.ofBlock name)).run s
          = .ok (.array [], s))
      ∧ (b.count ≠ 0 →
        match Json.read (toPlainJson b.template.toList s.placeholders).1 with
        | .error e => (expandString source (depth + 1) (Placeholder.ofBlock name)).run s
            = .ok (.array [], {
                source := s.source
                diagnostics := s.diagnostics ++ [⟨.blockFailure, name,
                  "Could not parse repeat block: " ++ (TemplateError.badSyntax e).message⟩]
                placeholders := (toPlainJson b.template.toList s.placeholders).2 })
        | .ok (.array []) => (expandString source (depth + 1) (Placeholder.ofBlock name)).run s
            = .ok (.array [], {
                source := s.source
                diagnostics := s.diagnostics
                placeholders := (toPlainJson b.template.toList s.placeholders).2 })
        | .ok (.array (_ :: _)) => ∀ v s',
            (expandString source (depth + 1) (Placeholder.ofBlock name)).run s = .ok (v, s')
              ↔ ∃ ws, v = .array ws ∧ ws.length = b.count
                ∧ Copies source depth b.template.toList ws s s'
        | .ok _ => False) := by
  have hnumbered : s₁.placeholders.Numbered :=
    (Operation.wellFormed_of_history Placeholders.wellFormed_empty h₁).name
  obtain ⟨hblock, hmarkless, u, hu⟩ := Placeholders.exists_of_mem_recorded hnumbered hb
  have hnamed := Placeholders.namedBlock?_ofBlock (hs _ _ hblock)
  have hrun : (expandString source (depth + 1) (Placeholder.ofBlock name)).run s = _ :=
    (run_expandString_of_named hnamed depth).trans (run_expandBlock name b s)
  refine ⟨outcome_toPlainJson hmarkless, fun hcount => ?_, fun hcount => ?_⟩
  · rw [hrun, hcount]
    rfl
  · have hitem := run_expandItem source depth b.template.toList s
    rw [hu] at hmarkless
    cases hread : Json.read (toPlainJson b.template.toList s.placeholders).1 with
    | error e =>
      rw [Placeholders.readTemplate_of_error hread] at hitem
      simp only
      rw [hrun, (run_copies_of_first hcount hitem).1 _ rfl]
    | ok v =>
      obtain ⟨items, rfl⟩ := exists_array_of_read hmarkless (hu ▸ hread)
      cases items with
      | nil =>
        rw [Placeholders.readTemplate_of_ok hread] at hitem
        simp only
        rw [hrun, (run_copies_of_first hcount hitem).2 rfl]
        rfl
      | cons item items =>
        simp only
        intro v s'
        have hall : ∀ p : Placeholders, ∃ v item p',
            p.readTemplate b.template.toList = (.ok v, p') ∧ v.firstItem? = some item := by
          intro p
          rw [hu]
          obtain ⟨item', items', hread'⟩ := exists_items_of_read hmarkless (hu ▸ hread) p
          exact ⟨_, _, _, Placeholders.readTemplate_of_ok hread',
            by rw [Placeholders.firstItem?_reinstate]; rfl⟩
        rw [hrun]
        have hcopies := run_copies_iff source depth hall b.count [] s
        constructor
        · intro h
          split at h
          · cases h
          · rename_i made s₂ hmade
            cases h
            obtain ⟨ws, hws, hlength, hcopies⟩ := (hcopies _ _).1 hmade
            cases hws
            exact ⟨ws, rfl, hlength, hcopies⟩
          · rename_i hmade
            obtain ⟨ws, hws, -⟩ := (hcopies _ _).1 hmade
            cases hws
        · rintro ⟨ws, rfl, hlength, h⟩
          rw [(hcopies s' (.ok ws)).2 ⟨ws, rfl, hlength, h⟩]

/-- Two blocks, of which one is no JSON. -/
def late : List Char :=
  "[[@] @repeat(2), [@a] @repeat(2)]".toList

/-- After another text the copies of `[@]` fail as one, and those of `[@a]` are made. -/
theorem Expanding.expandString_recorded_late : ∃ used s : Session Unit,
    (Operation.history (.constant (.string "w")) [.expandText "[[1] @repeat(1)]".toList]).run
        { source := () } = .ok ((), used)
      ∧ s = { used with placeholders := (toPlainJson late used.placeholders).2 }
      ∧ used.placeholders.recorded late = [("ARRAY_1", ⟨"[@]", 2⟩), ("ARRAY_2", ⟨"[@a]", 2⟩)]
      ∧ (∃ s', (expandString (.constant (.string "w")) 1 "__REPEAT_ARRAY_1__").run s
          = .ok (.array [], s') ∧ s'.diagnostics = s.diagnostics ++ [⟨.blockFailure, "ARRAY_1",
            "Could not parse repeat block: 1:2: expected value"⟩])
      ∧ ∃ ws s', (expandString (.constant (.string "w")) 1 "__REPEAT_ARRAY_2__").run s
          = .ok (.array ws, s') ∧ ws.length = 2
        ∧ Copies (.constant (.string "w")) 0 "[@a]".toList ws s s' := by
  have hused : ((Operation.history (.constant (.string "w"))
      [.expandText "[[1] @repeat(1)]".toList]).run { source := () }).toOption.map (fun r =>
        (r.2.placeholders.recorded late,
          (toPlainJson "[@]".toList (toPlainJson late r.2.placeholders).2).1,
          (toPlainJson "[@a]".toList (toPlainJson late r.2.placeholders).2).1,
          ((expandString (.constant (.string "w")) 1 "__REPEAT_ARRAY_2__").run
            { r.2 with placeholders := (toPlainJson late r.2.placeholders).2 }).toOption.isSome))
      = some ([("ARRAY_1", ⟨"[@]", 2⟩), ("ARRAY_2", ⟨"[@a]", 2⟩)], "[@]".toList,
        "[\"@a\"]".toList, true) := by decide +kernel
  rcases h₁ : (Operation.history (.constant (.string "w"))
    [.expandText "[[1] @repeat(1)]".toList]).run { source := () } with halt | ⟨⟨⟩, used⟩
      <;> rw [h₁] at hused
  · cases hused
  · have hused := Option.some.inj hused
    simp only [Prod.mk.injEq] at hused
    obtain ⟨hrecorded, hplain, hplain', hsome⟩ := hused
    obtain ⟨s, hs⟩ : ∃ s : Session Unit,
        s = { used with placeholders := (toPlainJson late used.placeholders).2 } := ⟨_, rfl⟩
    have hp : (toPlainJson late used.placeholders).2 = s.placeholders := by rw [hs]
    rw [← hs] at hsome
    rw [hp] at hplain hplain'
    have hwithin : (toPlainJson late used.placeholders).2.Within s.placeholders := by
      rw [hp]
      exact .refl _
    have hmem : (("ARRAY_1", ⟨"[@]", 2⟩) : String × RepeatBlock)
        ∈ used.placeholders.recorded late := by
      rw [hrecorded]
      exact List.mem_cons_self
    have hmem' : (("ARRAY_2", ⟨"[@a]", 2⟩) : String × RepeatBlock)
        ∈ used.placeholders.recorded late := by
      rw [hrecorded]
      exact List.mem_cons_of_mem _ List.mem_cons_self
    refine ⟨used, s, rfl, hs, hrecorded, ?_, ?_⟩
    · have h := (expandString_recorded h₁ hmem hwithin 0).2.2 (by decide)
      have hname : Placeholder.ofBlock "ARRAY_1" = "__REPEAT_ARRAY_1__" := by decide
      have hread : Json.read "[@]".toList = .error ⟨.expectedValue, ⟨1, 2⟩⟩ := rfl
      simp only [hplain, hread, hname] at h
      exact ⟨_, h, rfl⟩
    · have h := (expandString_recorded h₁ hmem' hwithin 0).2.2 (by decide)
      have hname : Placeholder.ofBlock "ARRAY_2" = "__REPEAT_ARRAY_2__" := by decide
      have hread : Json.read "[\"@a\"]".toList = .ok (.array [.string "@a"]) := rfl
      simp only [hplain', hread, hname] at h
      rcases hrun : (expandString (.constant (.string "w")) 1 "__REPEAT_ARRAY_2__").run s
        with halt | ⟨v, s'⟩
      · rw [hrun] at hsome
        cases hsome
      · obtain ⟨ws, rfl, hlength, hcopies⟩ := (h v s').1 hrun
        exact ⟨ws, s', rfl, hlength, hcopies⟩

end JsonTemplate
