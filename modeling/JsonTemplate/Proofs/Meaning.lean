import JsonTemplate.Proofs.Joining
import JsonTemplate.Proofs.Roots
import JsonTemplate.Proofs.TreeOutline
import JsonTemplate.ValueSource.Journal

/-!
# What a template means

Expanding a tree that is written out, with blanks wherever they may stand, is evaluating the tree
(`Template.expand_tree`): the same value, the same calls in the same order, the same diagnostics.
-/

namespace JsonTemplate

open Text

variable {σ : Type}

/-! ## Evaluating the outline -/

section Evaluation

variable (source : ValueSource σ)

theorem Outline.evaluateItems_replicate (o : Outline) (n : Nat) :
    evaluateItems source (List.replicate n o) = Resolving.times (o.evaluate source) n := by
  induction n with
  | zero => rfl
  | succ n ih => rw [List.replicate_succ, evaluateItems, ih, Resolving.times]

mutual

/-- The outline of a tree is evaluated as the tree is. -/
theorem Tree.evaluate_outline : ∀ t : Tree, t.outline.evaluate source = t.evaluate source
  | .scalar .null | .scalar (.bool _) | .scalar (.number _) => rfl
  | .quote q => by
    rw [Tree.outline, Outline.evaluate, resolveString_of_notMem source q.noSign, Tree.evaluate]
  | .mention m => by
    rw [Tree.outline, Outline.evaluate, m.resolveString_text, Tree.evaluate]
  | .concatenation c => by
    rw [Tree.outline, Outline.evaluate, c.resolveString_text, Tree.evaluate]
  | .array _ es => by
    rw [Tree.outline, Outline.evaluate, es.evaluate_outline, Tree.evaluate]
  | .object _ ms => by
    rw [Tree.outline, Outline.evaluate, ms.evaluate_outline, Tree.evaluate]
  | .repeated _ .nil _ _ => by
    rw [Tree.outline, Outline.evaluate, Outline.evaluateItems, Tree.evaluate, pure_bind]
  | .repeated _ (.cons _ t _ _) _ mark => by
    rw [Tree.outline, Outline.evaluate, Outline.evaluateItems_replicate, t.evaluate_outline,
      Tree.evaluate]

theorem Elements.evaluate_outline : ∀ es : Elements,
    Outline.evaluateItems source es.outline = es.evaluate source
  | .nil => rfl
  | .cons _ t _ rest => by
    rw [Elements.outline, Outline.evaluateItems, t.evaluate_outline, rest.evaluate_outline,
      Elements.evaluate]

theorem Members.evaluate_outline : ∀ ms : Members,
    Outline.evaluateFields source ms.outline = ms.evaluate source
  | .nil => rfl
  | .cons _ t _ rest => by
    rw [Members.outline, Outline.evaluateFields, t.evaluate_outline, rest.evaluate_outline,
      Members.evaluate]

end

end Evaluation

/-! ## Finding the root -/

theorem Tree.IsRoot.exists_text_eq {t : Tree} (h : t.IsRoot) : ∃ container c inner,
    Container.ofOpening? c = some container ∧ t.text = c :: (inner ++ [container.closing]) := by
  cases t with
  | array gap es => exact ⟨.array, '[', gap ++ es.text, rfl, by simp [Tree.text, Container.closing]⟩
  | object gap ms =>
    exact ⟨.object, '\x7b', gap ++ ms.text, rfl, by simp [Tree.text, Container.closing]⟩
  | scalar | quote | mention | concatenation | repeated => cases h

/-- The root of a tree that is written out is the tree. -/
theorem Plan.ofText?_tree {t : Tree} (h : t.IsRoot) (lead trail : Blanks) :
    ∃ container, Plan.ofText? (lead ++ (t.text ++ trail)) = some (.once container t.text) := by
  obtain ⟨container, c, inner, hc, htext⟩ := h.exists_text_eq
  refine ⟨container, ?_⟩
  rw [htext]
  exact Plan.ofText?_container hc inner lead trail

/-! ## Expansion -/

/-- Walking the value of a whole tree makes its outline. -/
theorem Tree.exists_outline {t : Tree} (hdepth : t.nesting < 128) (hkeys : t.DistinctKeys) :
    ∃ p p', Placeholders.readTemplate t.text {} = (.ok (t.value {}), p) ∧
      (Outlining.value (Outlining.string (p.blocks.length + Expanding.nestingAllowance))
        (t.value {})).run p = some (t.outline, p') := by
  have hlimit : t.nesting ≤ Json.depthLimit := Nat.le_of_lt_succ hdepth
  have hread := t.readTemplate_text Placeholders.wellFormed_empty hlimit hkeys
  obtain ⟨p, hp⟩ : ∃ p, (Placeholders.readTemplate t.text {}).2 = p := ⟨_, rfl⟩
  have hblocks : p.blocks = (t.flatten {}).2.blocks := by
    rw [← hp, Placeholders.readTemplate_blocks, t.extract_text]
  have hwell : p.WellFormed := by
    rw [← hp]
    exact Placeholders.wellFormed_empty.readTemplate t.text
  have hwithin : (t.flatten {}).2.Within p := by
    intro name block hb
    rwa [Placeholders.block?, hblocks]
  have hdeep : t.nesting ≤ p.blocks.length + Expanding.nestingAllowance := by
    have hallowance : Expanding.nestingAllowance = 4096 := rfl
    omega
  obtain ⟨p', -, hmakes⟩ := t.makes_outline hwell Placeholders.numbered_empty hwithin hdeep
    hlimit hkeys p hwell.alike
  exact ⟨p, p', Prod.ext hread hp, hmakes⟩

namespace Template

theorem run_expandOnce_tree (source : ValueSource σ) {t : Tree} (hdepth : t.nesting < 128)
    (hkeys : t.DistinctKeys) (s : σ) :
    (expandOnce source t.text).run.run s = ((t.evaluate source).run ⟨s, []⟩).map
      fun (v, ledger) => (.ok ⟨v, ledger.diagnostics⟩, ledger.source) := by
  obtain ⟨p, p', hread, houtline⟩ := Tree.exists_outline hdepth hkeys
  rw [run_expandOnce_of_outline hread houtline, t.evaluate_outline]

theorem run_expand_tree (source : ValueSource σ) {t : Tree} (hroot : t.IsRoot)
    (hdepth : t.nesting < 128) (hkeys : t.DistinctKeys) (lead trail : Blanks) (s : σ) :
    (expand source (lead ++ (t.text ++ trail))).run.run s = ((t.evaluate source).run ⟨s, []⟩).map
      fun (v, ledger) => (.ok ⟨v, ledger.diagnostics⟩, ledger.source) := by
  obtain ⟨container, hplan⟩ := Plan.ofText?_tree hroot lead trail
  rw [expand, hplan]
  exact run_expandOnce_tree source hdepth hkeys s

/-- A tree that is written out expands to the value of the tree: with any source the expansion ends
in the state and with the diagnostics that the evaluation of the tree ends with, having made the
same calls in the same order, and if every call is answered, it succeeds. -/
theorem expand_tree (source : ValueSource σ) {t : Tree} (hroot : t.IsRoot)
    (hdepth : t.nesting < 128) (hkeys : t.DistinctKeys) (lead trail : Blanks) (s : σ) :
    (expand source (lead ++ (t.text ++ trail))).run.run s
        = ((t.evaluate source).run ⟨s, []⟩).map
          (fun (v, ledger) => (.ok ⟨v, ledger.diagnostics⟩, ledger.source))
      ∧ (expand source.recorded (lead ++ (t.text ++ trail))).run.run (s, [])
        = ((t.evaluate source.recorded).run ⟨(s, []), []⟩).map
          (fun (v, ledger) => (.ok ⟨v, ledger.diagnostics⟩, ledger.source))
      ∧ (source.Answers → ∃ v ledger, (t.evaluate source).run ⟨s, []⟩ = .ok (v, ledger)) := by
  refine ⟨run_expand_tree source hroot hdepth hkeys lead trail s,
    run_expand_tree source.recorded hroot hdepth hkeys lead trail (s, []), fun h => ?_⟩
  obtain ⟨⟨v, ledger⟩, hrun⟩ := t.outline.returns_evaluate h ⟨s, []⟩
  rw [t.evaluate_outline] at hrun
  exact ⟨v, ledger, hrun⟩

/-- A quote within a text of words. -/
def article : Quote where
  body := ['a', ' ']
  value := "a "
  isRead := rfl
  plain := by simp
  noSign := by decide
  notExpression _ h := by cases congrArg List.head? h
  notBlock _ h := by cases congrArg List.head? h

def word : Mention where
  name := ['w']
  method := none
  arguments := none
  wellFormed := ⟨⟨'w', [], rfl, rfl, by nofun⟩, by nofun, by nofun⟩
  plain := by nofun
  notRepeat := by decide

/-- Two words in an array of their own, and a third one after an article. -/
def words : Tree :=
  .array (.one ' ' rfl) <|
    .cons .none
      (.repeated .none (.cons .none (.mention word) .none .nil)
        (.one ' ' rfl) ⟨['2'], 2, rfl⟩) .none <|
    .cons (.one '\n' rfl)
      (.concatenation ⟨.quote article, [⟨.none, .one ' ' rfl, .mention word⟩], by decide, rfl⟩)
      .none .nil

/-- The diagnostic of a name that stands for some word. -/
def unknownWord : Diagnostic :=
  ⟨.unknownVariable, "w", "Unknown variable: w, using lorem.word"⟩

theorem expand_tree_words :
    words.IsRoot ∧ words.nesting < 128 ∧ words.DistinctKeys ∧
      (expand (.constant (.string "x")) "[ [@w] @repeat(2),\n\"a \"+ @w]\n".toList).run.run ()
        = .ok (.ok ⟨.array [.array [.string "x", .string "x"], .string "a x"],
          [unknownWord, unknownWord, unknownWord]⟩, ()) := by
  have hdepth : words.nesting < 128 := by decide
  have hkeys : words.DistinctKeys := ⟨⟨trivial, trivial⟩, trivial, trivial⟩
  have hexpand := (expand_tree (.constant (.string "x")) (t := words) trivial hdepth hkeys
    .none (.one '\n' rfl) ()).1
  exact ⟨trivial, hdepth, hkeys, hexpand⟩

end Template

end JsonTemplate
