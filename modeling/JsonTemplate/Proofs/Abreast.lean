import JsonTemplate.Proofs.Answers
import JsonTemplate.Proofs.Copies
import JsonTemplate.Proofs.Nesting
import JsonTemplate.Proofs.Numberings

/-!
# A used expander

An expander that has been used before expands a text as a fresh one does
(`Expanding.expandJson_of_history`): its table has other numbers and old entries, and there are
earlier diagnostics. The two runs go abreast: their sources are in one state, and what they report
differs in the numbers of blocks and in the places of errors only.
-/

namespace JsonTemplate

open Json Placeholder

variable {σ α β γ δ : Type}

/-! ## Reports -/

/-- Problems that differ in the number of a block and in the place of an error only. -/
inductive Diagnostic.Similar : Diagnostic → Diagnostic → Prop
  | refl (d : Diagnostic) : Similar d d
  | block (n n' : Nat) {e e' : TemplateError} (h : e.Similar e') :
    Similar ⟨.blockFailure, blockName n, "Could not parse repeat block: " ++ e.message⟩
      ⟨.blockFailure, blockName n', "Could not parse repeat block: " ++ e'.message⟩

/-- The same result, or errors that differ in their place only. -/
inductive Akin : Except TemplateError α → Except TemplateError α → Prop
  | ok (a : α) : Akin (.ok a) (.ok a)
  | error {e e' : TemplateError} (h : e.Similar e') : Akin (.error e) (.error e')

namespace Resolving

/-- What has been reported before does not matter, and is kept. -/
def Adds (r : Resolving σ α) : Prop :=
  ∀ s before added, r.run ⟨s, before ++ added⟩
    = (r.run ⟨s, added⟩).map fun (a, l) => (a, ⟨l.source, before ++ l.diagnostics⟩)

theorem closed_adds (source : ValueSource σ) : Closed source fun _ r => r.Adds where
  pure _ _ _ _ := rfl
  bind {_ _ r f} hr hf s before added := by
    rw [run_bind, run_bind, hr]
    cases r.run ⟨s, added⟩ with
    | error halt => rfl
    | ok x => exact hf x.1 x.2.source before x.2.diagnostics
  report d s before added := by
    have hreport : ∀ l : Ledger σ, (report d).run l
        = .ok ((), { l with diagnostics := l.diagnostics ++ [d] }) := fun _ => rfl
    rw [hreport, hreport, List.append_assoc]
    rfl
  has _ _ _ _ _ := rfl
  call namespaceName method args s before added := by
    simp only [call, StateT.run]
    cases (source.call namespaceName method args).run s <;> rfl

end Resolving

namespace Expanding

/-! ## Runs abreast -/

section Runs

variable (L : Session σ → Session σ → Prop)

/-- The two halt alike, or their results and their states are related. -/
inductive Agree (R : α → β → Prop) :
    Except Halt (α × Session σ) → Except Halt (β × Session σ) → Prop
  | ok {a : α} {b : β} {s s' : Session σ} (h : R a b) (hs : L s s') :
    Agree R (.ok (a, s)) (.ok (b, s'))
  | halt (halt : Halt) : Agree R (.error halt) (.error halt)

/-- From related states the two agree. -/
def Abreast (R : α → β → Prop) (x : Expanding σ α) (y : Expanding σ β) : Prop :=
  ∀ s s', L s s' → Agree L R (x.run s) (y.run s')

variable {L} {R : α → β → Prop} {S : γ → δ → Prop}

theorem abreast_pure {a : α} {b : β} (h : R a b) :
    Abreast L R (pure a : Expanding σ α) (pure b : Expanding σ β) :=
  fun _ _ hs => .ok h hs

theorem Abreast.bind {x : Expanding σ α} {y : Expanding σ β} {f : α → Expanding σ γ}
    {g : β → Expanding σ δ} (h : Abreast L R x y) (hf : ∀ a b, R a b → Abreast L S (f a) (g b)) :
    Abreast L S (x >>= f) (y >>= g) := by
  intro s s' hs
  rw [run_bind, run_bind]
  have hagree := h s s' hs
  generalize x.run s = r at hagree ⊢
  generalize y.run s' = r' at hagree ⊢
  cases hagree with
  | ok hr hs => exact hf _ _ hr _ _ hs
  | halt halt => exact .halt halt

section Values

variable {T : String → String → Prop} {f g : String → Expanding σ Json}

mutual

theorem abreast_value (hf : ∀ x y, T x y → Abreast L Eq (f x) (g y)) : ∀ {v v' : Json},
    Matching T v v' → (∀ x ∈ v.keys, ∀ y, T x y → x = y) →
      Abreast L Eq (v.traverseStrings f) (v'.traverseStrings g)
  | .null, .null, _, _ => abreast_pure rfl
  | .bool _, .bool _, h, _ => abreast_pure (congrArg Json.bool h)
  | .number _, .number _, h, _ => abreast_pure (congrArg Json.number h)
  | .string x, .string y, h, _ => hf x y h
  | .array _, .array _, h, hkeys =>
    (abreast_items hf h hkeys).bind fun _ _ hvs => abreast_pure (congrArg Json.array hvs)
  | .object _, .object _, h, hkeys =>
    (abreast_fields hf h hkeys).bind fun _ _ hfs => abreast_pure (congrArg Json.object hfs)

theorem abreast_items (hf : ∀ x y, T x y → Abreast L Eq (f x) (g y)) : ∀ {vs vs' : List Json},
    MatchingItems T vs vs' → (∀ x ∈ keysOfItems vs, ∀ y, T x y → x = y) →
      Abreast L Eq (traverseItems f vs) (traverseItems g vs')
  | [], [], _, _ => abreast_pure rfl
  | v :: vs, v' :: vs', h, hkeys => by
    rw [keysOfItems_cons, List.forall_mem_append] at hkeys
    exact (abreast_value hf h.1 hkeys.1).bind fun _ _ hv =>
      (abreast_items hf h.2 hkeys.2).bind fun _ _ hvs => abreast_pure (congrArg₂ List.cons hv hvs)

theorem abreast_fields (hf : ∀ x y, T x y → Abreast L Eq (f x) (g y)) : ∀ {fs fs' : Fields},
    MatchingFields T fs fs' → (∀ x ∈ keysOfFields fs, ∀ y, T x y → x = y) →
      Abreast L Eq (traverseFields f fs) (traverseFields g fs')
  | [], [], _, _ => abreast_pure rfl
  | (key, v) :: fs, (key', v') :: fs', h, hkeys => by
    rw [keysOfFields_cons, List.forall_mem_cons, List.forall_mem_append] at hkeys
    obtain rfl := hkeys.1 key' h.1
    exact (abreast_value hf h.2.1 hkeys.2.1).bind fun _ _ hv =>
      (abreast_fields hf h.2.2 hkeys.2.2).bind fun _ _ hfs =>
        abreast_pure (congrArg₂ (fun v fs => (key, v) :: fs) hv hfs)

end

end Values

theorem abreast_copies {make make' : Expanding σ (Except TemplateError (Option Json))}
    (h : Abreast L Akin make make') : ∀ (n : Nat) (made : List Json),
      Abreast L Akin (copies make n made) (copies make' n made)
  | 0, _ => abreast_pure (.ok _)
  | n + 1, made => h.bind fun r r' hr => by
    cases hr with
    | error he => exact abreast_pure (.error he)
    | ok item =>
      cases item with
      | none => exact abreast_pure (.ok _)
      | some v => exact abreast_copies h n (v :: made)

end Runs

/-! ## Two tables -/

/-- The sources are in one state, and besides what was reported before, the same has been reported.
The tables have the blocks that they had at first. -/
structure Level (p q : Placeholders) (before : List Diagnostic) (s s' : Session σ) : Prop where
  source : s.source = s'.source
  diagnostics : ∃ added, s.diagnostics = before ++ added
    ∧ List.Forall₂ Diagnostic.Similar added s'.diagnostics
  left : p.Alike s.placeholders
  right : q.Alike s'.placeholders

section Tables

variable {p q : Placeholders} {before : List Diagnostic} {m m' k : Nat}

theorem abreast_resolving {r : Resolving σ α} (h : r.Adds) :
    Abreast (Level p q before) Eq (resolving r) (resolving r) := by
  rintro ⟨⟨source, diagnostics⟩, ps⟩ ⟨⟨source', diagnostics'⟩, ps'⟩ ⟨hsource, ⟨added, hadded, hsim⟩,
    hleft, hright⟩
  obtain rfl : source = source' := hsource
  obtain rfl : diagnostics = before ++ added := hadded
  have h₁ := h source (before ++ added) []
  have h₂ := h source diagnostics' []
  rw [List.append_nil] at h₁ h₂
  rw [run_resolving, run_resolving, h₁, h₂]
  cases r.run ⟨source, []⟩ with
  | error halt => exact .halt halt
  | ok x =>
    refine .ok rfl ⟨rfl, ⟨added ++ x.2.diagnostics, List.append_assoc _ _ _, ?_⟩, hleft, hright⟩
    exact List.rel_append hsim (List.forall₂_same.2 fun d _ => .refl d)

theorem abreast_report {d d' : Diagnostic} (h : d.Similar d') :
    Abreast (Level p q before) Eq (resolving (Resolving.report d) : Expanding σ Unit)
      (resolving (Resolving.report d')) := by
  rintro s s' ⟨hsource, ⟨added, hadded, hsim⟩, hleft, hright⟩
  refine .ok rfl ⟨hsource, ⟨added ++ [d], ?_, ?_⟩, hleft, hright⟩
  · exact (congrArg (· ++ [d]) hadded).trans (List.append_assoc _ _ _)
  · exact List.rel_append hsim (.cons h .nil)

theorem abreast_readTemplate {bits : List Bit} (h : Bit.HasSlots bits)
    (hmarkless : ∀ m, RepeatBlock.Markless (Bit.textFrom m bits))
    (hk : ∀ n, .block n ∈ bits → n < k) :
    Abreast (Level p q before) (SameReading m m' k)
      (readTemplate (Bit.textFrom m bits) : Expanding σ _)
      (readTemplate (Bit.textFrom m' bits)) := by
  rintro s s' ⟨hsource, hdiagnostics, hleft, hright⟩
  rw [readTemplate, readTemplate, run_updatePlaceholders, run_updatePlaceholders]
  refine .ok ?_ ⟨hsource, hdiagnostics, hleft.readTemplate (hmarkless m),
    hright.readTemplate (hmarkless m')⟩
  rw [Placeholders.readTemplate_eq, Placeholders.readTemplate_eq,
    RepeatBlock.extract_of_markless (hmarkless m), RepeatBlock.extract_of_markless (hmarkless m')]
  exact h.sameReading hk m m' hleft.wellFormed hright.wellFormed

section Blocks

variable {f g : String → Expanding σ Json}
  (hf : ∀ x y, SameName m m' k x y → Abreast (Level p q before) Eq (f x) (g y))
include hf

theorem abreast_expandItem {bits : List Bit} (h : Bit.HasSlots bits)
    (hmarkless : ∀ m, RepeatBlock.Markless (Bit.textFrom m bits))
    (hk : ∀ n, .block n ∈ bits → n < k) :
    Abreast (Level p q before) Akin (expandItem f (Bit.textFrom m bits))
      (expandItem g (Bit.textFrom m' bits)) := by
  refine (abreast_readTemplate h hmarkless hk).bind fun r r' hr => ?_
  cases hr with
  | error he => exact abreast_pure (.error he)
  | @ok v v' hv hkeys =>
    dsimp only
    have hfirst := hv.firstItem?
    cases hi : v.firstItem? with
    | none =>
      rw [hi] at hfirst
      cases hi' : v'.firstItem? with
      | none => exact abreast_pure (.ok none)
      | some item' =>
        rw [hi'] at hfirst
        cases hfirst
    | some item =>
      rw [hi] at hfirst
      cases hi' : v'.firstItem? with
      | none =>
        rw [hi'] at hfirst
        cases hfirst
      | some item' =>
        rw [hi'] at hfirst
        obtain ⟨hitem⟩ := hfirst
        refine (abreast_value hf hitem fun x hx => hkeys x (mem_keys_of_firstItem? hi hx)).bind
          fun w w' hw => abreast_pure ?_
        rw [hw]
        exact .ok (some w')

theorem abreast_expandBlock {c : Cutting} (h : Bit.HasSlots c.template)
    (hmarkless : ∀ m, RepeatBlock.Markless (Bit.textFrom m c.template))
    (hk : ∀ n, .block n ∈ c.template → n < k) (n n' : Nat) :
    Abreast (Level p q before) Eq (expandBlock f (blockName n) (c.block m))
      (expandBlock g (blockName n') (c.block m')) := by
  have htext : ∀ m, (c.block m).template.toList = Bit.textFrom m c.template :=
    fun m => String.toList_ofList
  rw [expandBlock, expandBlock, htext, htext]
  refine (abreast_copies (abreast_expandItem hf h hmarkless hk) c.count []).bind fun r r' hr => ?_
  cases hr with
  | ok items => exact abreast_pure rfl
  | error he => exact (abreast_report (.block n n' he)).bind fun _ _ _ => abreast_pure rfl

end Blocks

/-- The cuttings of a text are recorded in the table, from the number `m` on. -/
structure Recorded (cuttings : List Cutting) (m : Nat) (p : Placeholders) : Prop where
  wellFormed : p.WellFormed
  length : cuttings.length ≤ p.blocks.length
  block : ∀ (i : Nat) (c : Cutting), cuttings[i]? = some c →
    p.block? (blockName (m + i)) = some (c.block m)

/-- A block is expanded alike where the two may go as deep as it has blocks within it. -/
theorem abreast_expandString (source : ValueSource σ) {t : List Char}
    (hslots : ∀ c ∈ (Excerpt.ofText t).cuttings, Bit.HasSlots c.template)
    (hp : Recorded (Excerpt.ofText t).cuttings m p)
    (hq : Recorded (Excerpt.ofText t).cuttings m' q) (hk : k ≤ (Excerpt.ofText t).cuttings.length)
    {depth depth' : Nat} (hd : k ≤ depth) (hd' : k ≤ depth') {x y : String}
    (h : SameName m m' k x y) :
    Abreast (Level p q before) Eq (expandString source depth x) (expandString source depth' y) := by
  induction k using Nat.strong_induction_on generalizing depth depth' x y with
  | _ k ih =>
    intro s s' hs
    rcases h with ⟨rfl, hx⟩ | ⟨n, hn, rfl, rfl⟩
    · have hnone := hs.left.wellFormed.namedBlock?_eq_none hx
      have hnone' := hs.right.wellFormed.namedBlock?_eq_none hx
      rw [run_expandString_of_unnamed hnone, run_expandString_of_unnamed hnone', ← run_resolving,
        ← run_resolving]
      exact abreast_resolving ((Resolving.closed_adds source).resolveString x) s s' hs
    · obtain ⟨depth, rfl⟩ :=
        Nat.exists_eq_succ_of_ne_zero (Nat.ne_zero_of_lt (Nat.lt_of_lt_of_le hn hd))
      obtain ⟨depth', rfl⟩ :=
        Nat.exists_eq_succ_of_ne_zero (Nat.ne_zero_of_lt (Nat.lt_of_lt_of_le hn hd'))
      have hc := List.getElem?_eq_getElem (Nat.lt_of_lt_of_le hn hk)
      have hmem := List.mem_of_getElem? hc
      have hnamed := Placeholders.namedBlock?_ofBlock (hp.block n _ hc)
      have hnamed' := Placeholders.namedBlock?_ofBlock (hq.block n _ hc)
      rw [← Placeholders.namedBlock?_congr hs.left.blocks] at hnamed
      rw [← Placeholders.namedBlock?_congr hs.right.blocks] at hnamed'
      rw [run_expandString_of_named hnamed, run_expandString_of_named hnamed']
      refine abreast_expandBlock (k := n) (fun x y hxy => ?_) (hslots _ hmem)
        (fun m => Excerpt.markless_of_mem t m hmem)
        ((Excerpt.nested_ofText t).template n _ hc) _ _ s s' hs
      exact ih n hn (Nat.le_of_lt (Nat.lt_of_lt_of_le hn hk)) (by omega) (by omega) hxy

/-- Each of the two may go as deep as all blocks. -/
theorem abreast_expandValue (source : ValueSource σ) {t : List Char}
    (hslots : ∀ c ∈ (Excerpt.ofText t).cuttings, Bit.HasSlots c.template)
    (hp : Recorded (Excerpt.ofText t).cuttings m p)
    (hq : Recorded (Excerpt.ofText t).cuttings m' q) {v v' : Json}
    (hv : Matching (SameName m m' (Excerpt.ofText t).cuttings.length) v v')
    (hkeys : ∀ x ∈ v.keys, ∀ y, SameName m m' (Excerpt.ofText t).cuttings.length x y → x = y) :
    Abreast (Level p q before) Eq (expandValue source v) (expandValue source v') := by
  intro s s' hs
  rw [Template.run_expandValue, Template.run_expandValue, hs.left.blocks, hs.right.blocks]
  refine abreast_value (fun x y hxy => ?_) hv hkeys s s' hs
  exact abreast_expandString source hslots hp hq (Nat.le_refl _)
    (Nat.le_add_right_of_le hp.length) (Nat.le_add_right_of_le hq.length) hxy

end Tables

end Expanding

/-! ## Histories -/

/-- Expressions and blocks are values of their own in a text and in each of its blocks. -/
def Excerpt.HasSlots (x : Excerpt) : Prop :=
  Bit.HasSlots x.left ∧ ∀ c ∈ x.cuttings, Bit.HasSlots c.template

namespace Expanding

open Excerpt

theorem recorded_readTemplate {p : Placeholders} (hp : p.WellFormed) (t : List Char) :
    Recorded (ofText t).cuttings p.nextBlock (p.readTemplate t).2 where
  wellFormed := hp.readTemplate t
  length := by
    rw [Placeholders.readTemplate_blocks, extract_eq]
    simp [Placeholders.recordAll]
  block i c hc := by
    rw [Placeholders.block?, Placeholders.readTemplate_blocks, extract_eq]
    exact Placeholders.Numbered.block?_recordAll hp.name hc

theorem sameReading_readTemplate {p q : Placeholders} (hp : p.WellFormed) (hq : q.WellFormed)
    {t : List Char} (ht : (ofText t).HasSlots) :
    SameReading p.nextBlock q.nextBlock (ofText t).cuttings.length (p.readTemplate t).1
      (q.readTemplate t).1 := by
  have hp' := hp.extract t
  have hq' := hq.extract t
  rw [extract_eq] at hp' hq'
  rw [Placeholders.readTemplate_eq, Placeholders.readTemplate_eq, extract_eq, extract_eq]
  exact ht.1.sameReading (nested_ofText t).left _ _ hp' hq'

/-- However an expander has been used, it expands a text as a fresh one does with a source in the
same state: it stops alike, or it gives the same value or the same error but for its place, the
source ends in the same state, be it one that keeps a record, and what is reported differs in the
numbers of blocks and in the places of errors only. -/
theorem expandJson_of_history {source : ValueSource σ} {ops : List Operation} {s₀ : σ}
    {s : Session σ} (h : (Operation.history source ops).run { source := s₀ } = .ok ((), s))
    {t : List Char} (ht : (ofText t).HasSlots) :
    match (expandJson source t).run s, (expandJson source t).run { source := s.source } with
    | .ok (r, used), .ok (r', fresh) => Akin r r' ∧ used.source = fresh.source
        ∧ ∃ added, used.diagnostics = s.diagnostics ++ added
          ∧ List.Forall₂ Diagnostic.Similar added fresh.diagnostics
    | .error halt, .error halt' => halt = halt'
    | _, _ => False := by
  have hwell := Operation.wellFormed_of_history Placeholders.wellFormed_empty h
  have hread := sameReading_readTemplate hwell Placeholders.wellFormed_empty ht
  have hleft := recorded_readTemplate hwell t
  have hright := recorded_readTemplate Placeholders.wellFormed_empty t
  rw [run_expandJson, run_expandJson]
  dsimp only
  generalize s.placeholders.readTemplate t = read at hread hleft ⊢
  generalize Placeholders.readTemplate t {} = read' at hread hright ⊢
  obtain ⟨r, p⟩ := read
  obtain ⟨r', q⟩ := read'
  dsimp only at hread hleft hright
  cases hread with
  | error he => exact ⟨.error he, rfl, [], (List.append_nil _).symm, .nil⟩
  | @ok v v' hv hkeys =>
    have hlevel : Level p q s.diagnostics { s with placeholders := p }
        { source := s.source, placeholders := q } :=
      ⟨rfl, ⟨[], (List.append_nil _).symm, .nil⟩, hleft.wellFormed.alike, hright.wellFormed.alike⟩
    have hagree := abreast_expandValue source ht.2 hleft hright hv hkeys _ _ hlevel
    dsimp only
    generalize (expandValue source v).run { s with placeholders := p } = x at hagree ⊢
    generalize (expandValue source v').run { source := s.source, placeholders := q } = y
      at hagree ⊢
    cases hagree with
    | halt halt => rfl
    | ok hw hs =>
      subst hw
      exact ⟨.ok _, hs.source, hs.diagnostics⟩

/-- After a text that is not JSON the copies of `[@]` fail as they do with a fresh expander, and the
expression after them is evaluated. -/
theorem expandJson_of_history_malformed : ∃ (used : Session Unit) (r r' : Except TemplateError Json)
    (s s' : Session Unit),
    (Operation.history (.constant .null) [.expandText "[[1] @repeat(1), @a + @b".toList]).run
        { source := () } = .ok ((), used)
      ∧ (expandJson (.constant .null) "[[@] @repeat(1), @a + @b]".toList).run used = .ok (r, s)
      ∧ (expandJson (.constant .null) "[[@] @repeat(1), @a + @b]".toList).run { source := () }
        = .ok (r', s')
      ∧ used.placeholders.nextBlock = 1 ∧ Akin r r'
      ∧ ∃ added, s.diagnostics = used.diagnostics ++ added
        ∧ List.Forall₂ Diagnostic.Similar added s'.diagnostics := by
  have hused : ((Operation.history (.constant .null)
      [.expandText "[[1] @repeat(1), @a + @b".toList]).run { source := () }).toOption.map
        (fun r => r.2.placeholders.nextBlock) = some 1 := by decide +kernel
  have hfresh : ((expandJson (.constant .null) "[[@] @repeat(1), @a + @b]".toList).run
      { source := () }).toOption.isSome = true := by decide +kernel
  have hslots : (ofText "[[@] @repeat(1), @a + @b]".toList).HasSlots := by
    have htext : ofText "[[@] @repeat(1), @a + @b]".toList
        = ⟨.char '[' :: .block 0 :: ", @a + @b]".toList.map .char,
          [⟨"[@]".toList.map .char, [' '], ['1'], 1⟩]⟩ := by decide +kernel
    rw [htext]
    refine ⟨⟨[.other '[', .block 0, .other ',', .other ' ',
        .chained ⟨"@a + @b".toList, [.token "@a".toList, .token "@b".toList]⟩, .other ']'],
        by decide, by decide +kernel, rfl, fun _ _ => rfl, fun h => absurd (by decide) h, trivial⟩,
      List.forall_mem_singleton.2 ⟨[.other '[', .other '@', .other ']'], by decide,
        by decide +kernel, trivial⟩⟩
  rcases hrun : (Operation.history (.constant .null)
      [.expandText "[[1] @repeat(1), @a + @b".toList]).run { source := () } with halt | ⟨⟨⟩, used⟩
  · rw [hrun] at hused
    cases hused
  · have h := expandJson_of_history hrun hslots
    rw [hrun] at hused
    split at h
    · rename_i r s r' s' hr hr'
      exact ⟨used, r, r', s, s', rfl, hr, hr', Option.some.inj hused, h.1, h.2.2⟩
    · rename_i halt halt' hr hr'
      have hr' : (expandJson (.constant .null) "[[@] @repeat(1), @a + @b]".toList).run
          { source := () } = .error halt' := hr'
      rw [hr'] at hfresh
      cases hfresh
    · exact h.elim

end Expanding

end JsonTemplate
