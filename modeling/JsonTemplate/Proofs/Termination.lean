import JsonTemplate.Proofs.Order
import JsonTemplate.Proofs.Renaming
import JsonTemplate.Proofs.Surroundings

/-!
# Termination

An expansion returns with some allowance, for every source that answers its calls, exactly if the
blocks of the text nest no deeper than that allows (`Template.Unrolls`), which its strings decide
and no answer does. An expansion that returns does so in the same way with every greater allowance,
so that the expansion ends if it returns with any (`Template.Ends`). That is so, and with every
allowance, where the blocks' references do not go round in a circle, as in a text that is unmarked.
Where they do, a transparent text has no end: a text need only quote the placeholder of a block
within the block.
-/

namespace JsonTemplate

open Text

variable {σ : Type}

namespace Template

/-- The text that a template is expanded from, unless it is none or repeated not once. -/
def expandedText? (t : List Char) : Option (List Char) :=
  match Plan.ofText? t with
  | some (.once _ text) => some text
  | some (.repeated text n) => if n = 0 then none else some text
  | none => none

open Expanding (nestingAllowance)

/-- The value of a text has an outline: its blocks nest no deeper than is allowed. -/
def TextUnrolls (text : List Char) (allowance : Nat := nestingAllowance) : Prop :=
  ∀ v p, Placeholders.readTemplate text {} = (.ok v, p) →
    ((Outlining.value (Outlining.string (p.blocks.length + allowance)) v).run p).isSome

/-- The template is not expanded, or its blocks nest no deeper than is allowed. -/
def Unrolls (t : List Char) (allowance : Nat := nestingAllowance) : Prop :=
  ∀ text, expandedText? t = some text → TextUnrolls text allowance

/-- The expansion comes to an end, however deep its blocks nest. -/
def Ends (source : ValueSource σ) (t : List Char) (s : σ) : Prop :=
  ∃ allowance r, (expand source t allowance).run.run s = .ok r

/-- The blocks that a text names lead round in a circle. -/
def TextCircular (text : List Char) : Prop :=
  ∃ v p, Placeholders.readTemplate text {} = (.ok v, p) ∧ p.Circular p.Refers v

/-- The blocks that a template names lead round in a circle. -/
def Circular (t : List Char) : Prop :=
  ∃ text, expandedText? t = some text ∧ TextCircular text

variable {allowance : Nat}

/-! ## One round -/

theorem wellFormed_of_readTemplate {text : List Char} {v : Json} {p : Placeholders}
    (h : Placeholders.readTemplate text {} = (.ok v, p)) : p.WellFormed := by
  have := Placeholders.wellFormed_empty.readTemplate text
  rwa [h] at this

theorem textUnrolls_of_not_circular {text : List Char} (h : ¬ TextCircular text) :
    TextUnrolls text allowance := by
  intro v p hr
  have hp := wellFormed_of_readTemplate hr
  have hv : ¬ p.Circular p.Refers v := fun hc => h ⟨v, p, hr, hc⟩
  exact Outlining.succeeds_value_of_not_circular hv (Nat.le_add_right _ _) p hp.alike

/-- A transparent text whose blocks refer to one another in a circle has no outline. -/
theorem not_textUnrolls_of_circular {text : List Char} (ht : Transparent text)
    (h : TextCircular text) : ¬ TextUnrolls text allowance := by
  obtain ⟨v, p, hr, a, ha, b, hreach, hcircle⟩ := h
  have hp := wellFormed_of_readTemplate hr
  have htemplates : ∀ c ∈ p.blocks, Transparent c.2.template.toList := by
    have hq := transparent_extractFrom [] text {} ht fun _ hb => by cases hb
    have hb := Placeholders.readTemplate_blocks text {}
    rw [hr] at hb
    rw [show p.blocks = _ from hb]
    exact hq
  have halways : ∀ c d, p.Refers c d → p.RefersAlways c d := by
    rintro c d ⟨block, hb, hcount, q, hq, hd⟩
    have hmem := Placeholders.mem_blocks_of_block? hb
    refine ⟨block, hb, hcount, fun q' hq' => ?_⟩
    rw [hq'.references_eq hp (hp.template _ hmem) (htemplates _ hmem)]
    rwa [hq.references_eq hp (hp.template _ hmem) (htemplates _ hmem)] at hd
  have hc : p.Circular p.RefersAlways v :=
    ⟨a, ha, b, Relation.ReflTransGen.mono halways _ _ hreach,
      Relation.TransGen.mono halways _ _ hcircle⟩
  intro hu
  have := hu v p hr
  rw [Outlining.fails_value_of_circle hc _ p hp.alike] at this
  cases this

theorem run_expandOnce_of_textUnrolls {source : ValueSource σ} (h : source.Answers)
    {text : List Char} (hu : TextUnrolls text allowance) (s : σ) :
    ∃ r, (expandOnce source text allowance).run.run s = .ok r := by
  rcases hr : Placeholders.readTemplate text {} with ⟨e | v, p⟩
  · rw [run_expandOnce, hr]
    exact ⟨_, rfl⟩
  · obtain ⟨⟨o, p'⟩, ho⟩ := Option.isSome_iff_exists.1 (hu v p hr)
    obtain ⟨⟨w, l⟩, hw⟩ := Outline.returns_evaluate h o ⟨s, []⟩
    rw [run_expandOnce_of_outline hr ho, hw]
    exact ⟨_, rfl⟩

theorem run_expandOnce_of_not_textUnrolls {source : ValueSource σ} (h : source.Answers)
    {text : List Char} (hu : ¬ TextUnrolls text allowance) (s : σ) :
    (expandOnce source text allowance).run.run s = .error .endlessNesting := by
  simp only [TextUnrolls, not_forall, Bool.not_eq_true, Option.isSome_eq_false_iff,
    Option.isNone_iff_eq_none] at hu
  obtain ⟨v, p, hr, hn⟩ := hu
  obtain ⟨halt, hrun, ha⟩ := run_expandOnce_of_deep source hr hn s
  rw [hrun, ha h]

/-- A round that returns does so in the same way with a greater allowance. -/
theorem run_expandOnce_of_le {source : ValueSource σ} {text : List Char} {m : Nat}
    (hm : allowance ≤ m) {s : σ} {r : Except TemplateError Expanded × σ}
    (h : (expandOnce source text allowance).run.run s = .ok r) :
    (expandOnce source text m).run.run s = .ok r := by
  rcases hr : Placeholders.readTemplate text {} with ⟨e | v, p⟩
  · rw [run_expandOnce, hr] at h ⊢
    exact h
  · obtain ⟨o, p', ho, -⟩ := exists_outline_of_run hr h
    have hdepth := Nat.add_le_add_left hm p.blocks.length
    have ho' := Outlining.extends_value (Outlining.extends_string hdepth) v p _ ho
    rw [run_expandOnce_of_outline hr ho] at h
    rw [run_expandOnce_of_outline hr ho', h]

/-! ## All rounds -/

theorem run_expandTimes_of_textUnrolls {source : ValueSource σ} (h : source.Answers)
    {text : List Char} (hu : TextUnrolls text allowance) :
    ∀ (n : Nat) (rounds : List Expanded) (s : σ),
      ∃ r, (expandTimes source text n rounds allowance).run.run s = .ok r
  | 0, _, _ => ⟨_, rfl⟩
  | n + 1, rounds, s => by
    obtain ⟨⟨r, s'⟩, hr⟩ := run_expandOnce_of_textUnrolls h hu s
    rw [expandTimes, run_bind, hr]
    cases r with
    | error e => exact ⟨_, rfl⟩
    | ok x => exact run_expandTimes_of_textUnrolls h hu n _ s'

theorem run_expandTimes_of_le {source : ValueSource σ} {text : List Char} {m : Nat}
    (hm : allowance ≤ m) : ∀ {n : Nat} {rounds : List Expanded} {s : σ}
      {r : Except TemplateError Expanded × σ},
      (expandTimes source text n rounds allowance).run.run s = .ok r →
        (expandTimes source text n rounds m).run.run s = .ok r
  | 0, _, _, _, h => h
  | n + 1, rounds, s, r, h => by
    rw [expandTimes, run_bind] at h ⊢
    rcases hr : (expandOnce source text allowance).run.run s with halt | ⟨e | x, s'⟩
    · rw [hr] at h
      cases h
    · rw [hr] at h
      rw [run_expandOnce_of_le hm hr]
      exact h
    · rw [hr] at h
      rw [run_expandOnce_of_le hm hr]
      exact run_expandTimes_of_le hm h

theorem run_repeated (source : ValueSource σ) (text : List Char) (n : Nat) (s : σ) :
    (run source (.repeated text n) allowance).run.run s = match check text with
      | .error e => .ok (.error e, s)
      | .ok _ => (expandTimes source text n [] allowance).run.run s := by
  have hc : (ExceptT.mk (pure (check text)) : Expansion σ Unit).run.run s
      = .ok (check text, s) := rfl
  rw [run, run_bind, hc]
  cases check text <;> rfl

/-- A text that fails its check has nothing to unroll. -/
theorem textUnrolls_of_check {text : List Char} {e : TemplateError} (h : check text = .error e) :
    TextUnrolls text allowance := by
  intro v p hr
  rw [check_eq, hr] at h
  cases h

theorem run_expand_of_unrolls {source : ValueSource σ} (h : source.Answers) {t : List Char}
    (hu : Unrolls t allowance) (s : σ) :
    ∃ r, (expand source t allowance).run.run s = .ok r := by
  unfold Unrolls expandedText? at hu
  unfold expand
  rcases hp : Plan.ofText? t with _ | ⟨c, text⟩ | ⟨text, n⟩ <;> simp only [hp] at hu ⊢
  · exact ⟨_, rfl⟩
  · exact run_expandOnce_of_textUnrolls h (hu text rfl) s
  · rw [run_repeated]
    cases check text with
    | error e => exact ⟨_, rfl⟩
    | ok u =>
      by_cases hn : n = 0
      · rw [hn]
        exact ⟨_, rfl⟩
      · exact run_expandTimes_of_textUnrolls h (hu text (by simp [hn])) n [] s

theorem run_expand_of_not_unrolls {source : ValueSource σ} (h : source.Answers) {t : List Char}
    (hu : ¬ Unrolls t allowance) (s : σ) :
    (expand source t allowance).run.run s = .error .endlessNesting := by
  unfold Unrolls expandedText? at hu
  unfold expand
  rcases hp : Plan.ofText? t with _ | ⟨c, text⟩ | ⟨text, n⟩ <;> simp only [hp] at hu ⊢
  · simp at hu
  · simp only [Option.some.injEq, forall_eq'] at hu
    exact run_expandOnce_of_not_textUnrolls h hu s
  · by_cases hn : n = 0
    · simp [hn] at hu
    · simp only [if_neg hn, Option.some.injEq, forall_eq'] at hu
      rw [run_repeated]
      obtain ⟨m, rfl⟩ := Nat.exists_eq_succ_of_ne_zero hn
      cases hc : check text with
      | error e => exact absurd (textUnrolls_of_check hc) hu
      | ok u =>
        dsimp only
        rw [expandTimes, run_bind, run_expandOnce_of_not_textUnrolls h hu]

/-- An expansion that returns does so in the same way with a greater allowance. -/
theorem run_expand_of_le {source : ValueSource σ} {t : List Char} {m : Nat} (hm : allowance ≤ m)
    {s : σ} {r : Except TemplateError Expanded × σ}
    (h : (expand source t allowance).run.run s = .ok r) :
    (expand source t m).run.run s = .ok r := by
  unfold expand at h ⊢
  rcases hp : Plan.ofText? t with _ | ⟨c, text⟩ | ⟨text, n⟩ <;> simp only [hp] at h ⊢
  · exact h
  · exact run_expandOnce_of_le hm h
  · rw [run_repeated] at h ⊢
    cases hc : check text with
    | error e =>
      rw [hc] at h
      exact h
    | ok u =>
      rw [hc] at h
      exact run_expandTimes_of_le hm h

/-- The text that is read is a part of the template. -/
theorem infix_of_ofText? {t : List Char} {plan : Plan} (h : Plan.ofText? t = some plan) :
    (match plan with | .once _ text => text | .repeated text _ => text) <:+: t := by
  obtain ⟨r, hr, rfl⟩ := Option.map_eq_some_iff.1 h
  have happ := Root.splitAfterLast_append r.container.closing r.text
  have hsplit : r.split.1 <:+: t := by
    refine ⟨r.before, r.split.2, ?_⟩
    rw [List.append_assoc, Root.split, happ, ← (Root.exists_of_find? hr).1]
  dsimp only
  split
  · rename_i heq
    split at heq <;> cases heq
    exact hsplit
  · rename_i heq
    split at heq <;> cases heq
    exact hsplit

theorem infix_of_expandedText? {t text : List Char} (h : expandedText? t = some text) :
    text <:+: t := by
  unfold expandedText? at h
  split at h
  · rename_i hp
    cases h
    exact infix_of_ofText? hp
  · rename_i hp
    split at h
    · cases h
    · cases h
      exact infix_of_ofText? hp
  · cases h

/-- The blocks of an unmarked text do not lead round in a circle. -/
theorem not_circular_of_unmarked {t : List Char} (ht : Unmarked t) (he : '\\' ∉ t) :
    ¬ Circular t := by
  rintro ⟨text, htext, v, p, hr, hcircle⟩
  have hpart := infix_of_expandedText? htext
  have he' : '\\' ∉ text := fun hm => he (hpart.subset hm)
  have htransparent : Transparent text := ⟨he', ht.part hpart _ List.mem_cons_self⟩
  have hblocks := Placeholders.readTemplate_blocks text {}
  rw [hr] at hblocks
  obtain ⟨-, hordered⟩ := RepeatBlock.tidy_extractFrom [] text {}
    (.of_unmarked 0 (ht.part hpart) (Json.escapeless_of_notMem he')) Placeholders.ordered_empty
  refine hordered.not_circular hblocks (fun b hb => ?_) v hcircle
  rw [show p.blocks = _ from hblocks] at hb
  have hb := transparent_extractFrom [] text {} htransparent (fun _ hb => by cases hb) b hb
  exact Json.escapeless_of_notMem hb.noEscape

/-- For a source that answers its calls, an expansion with some allowance returns exactly if the
blocks of the text nest no deeper than that allows, and else it stops for their nesting; once an
allowance is enough, every greater one gives the same. Every allowance is enough unless the blocks'
references go round in a circle, and for a transparent text with such a circle none is. An unmarked
text has none. -/
theorem expand_returns_iff {source : ValueSource σ} (h : source.Answers) (t : List Char) (s : σ) :
    (∀ n, (∃ r, (expand source t n).run.run s = .ok r) ↔ Unrolls t n)
      ∧ (∀ n, (expand source t n).run.run s = .error .endlessNesting ↔ ¬ Unrolls t n)
      ∧ (∀ n r, (expand source t n).run.run s = .ok r →
        ∀ m, n ≤ m → (expand source t m).run.run s = .ok r)
      ∧ (¬ Circular t → ∀ n, ∃ r, (expand source t n).run.run s = .ok r)
      ∧ (Transparent t → (Ends source t s ↔ ¬ Circular t))
      ∧ (Unmarked t → '\\' ∉ t → ¬ Circular t) := by
  have hreturns : ∀ n, (∃ r, (expand source t n).run.run s = .ok r) ↔ Unrolls t n := by
    refine fun n => ⟨fun ⟨r, hr⟩ => ?_, fun hu => run_expand_of_unrolls h hu s⟩
    by_contra hu
    rw [run_expand_of_not_unrolls h hu s] at hr
    cases hr
  have hnot : ¬ Circular t → ∀ n, ∃ r, (expand source t n).run.run s = .ok r :=
    fun hc n => (hreturns n).2 fun text ht =>
      textUnrolls_of_not_circular fun hcircle => hc ⟨text, ht, hcircle⟩
  refine ⟨hreturns, fun n => ⟨fun he hu => ?_, fun hu => run_expand_of_not_unrolls h hu s⟩,
    fun n r hr m hm => run_expand_of_le hm hr, hnot, fun htrans => ⟨?_, fun hc => ⟨0, hnot hc 0⟩⟩,
    not_circular_of_unmarked⟩
  · obtain ⟨r, hr⟩ := (hreturns n).2 hu
    rw [hr] at he
    cases he
  · rintro ⟨n, hr⟩ ⟨text, ht, hcircle⟩
    exact not_textUnrolls_of_circular (htrans.part (infix_of_expandedText? ht)) hcircle
      ((hreturns n).1 hr text ht)

/-- A block within a block, with directives and a concatenation. -/
def nested : List Char :=
  "\x7b\"a\": [\x7b\"b\": [@x.y(1), 2] @repeat(2), \"c\": \"p\" + @z\x7d] @repeat(3)\x7d".toList

theorem expand_returns_nested :
    (ValueSource.constant .null).Answers ∧ Unmarked nested ∧ '\\' ∉ nested
      ∧ ∀ n, ∃ r, (expand (ValueSource.constant .null) nested n).run.run () = .ok r := by
  have hunmarked : Unmarked nested := by decide +kernel
  have hescape : '\\' ∉ nested := by decide +kernel
  obtain ⟨-, -, -, hreturns, -, hcircle⟩ :=
    expand_returns_iff (ValueSource.answers_constant .null) nested ()
  exact ⟨ValueSource.answers_constant .null, hunmarked, hescape,
    hreturns (hcircle hunmarked hescape)⟩

/-- A block that quotes its own placeholder. -/
def selfQuoting : List Char :=
  "\x7b\"a\": [\"__REPEAT_ARRAY_0__\"] @repeat(1)\x7d".toList

theorem textCircular_selfQuoting : TextCircular selfQuoting := by
  have hnamed : (Placeholders.readTemplate selfQuoting {}).1.toOption.map
      (Placeholders.readTemplate selfQuoting {}).2.namedIn = some ["ARRAY_0"] := by decide +kernel
  have hblock : (Placeholders.readTemplate selfQuoting {}).2.block? "ARRAY_0"
      = some ⟨"[\"__REPEAT_ARRAY_0__\"]", 1⟩ := by decide +kernel
  have hself : (Placeholders.readTemplate selfQuoting {}).2.references
      "[\"__REPEAT_ARRAY_0__\"]".toList = ["ARRAY_0"] := by decide +kernel
  rcases hr : Placeholders.readTemplate selfQuoting {} with ⟨e | v, p⟩
  · rw [hr] at hnamed
    cases hnamed
  · have hp := wellFormed_of_readTemplate hr
    rw [hr] at hnamed hblock hself
    dsimp only at hnamed hblock hself
    have href : p.Refers "ARRAY_0" "ARRAY_0" :=
      ⟨_, hblock, by decide, p, hp.alike, by rw [hself]; exact List.mem_singleton_self _⟩
    refine ⟨v, p, hr, "ARRAY_0", ?_, "ARRAY_0", .refl, .single href⟩
    rw [Option.some.inj hnamed]
    exact List.mem_singleton_self _

/-- Not every expansion ends, though the source answers all its calls. -/
theorem expand_selfQuoting_endless :
    ¬ ∀ t, Ends (ValueSource.constant .null) t () := by
  intro h
  have htext : expandedText? selfQuoting = some selfQuoting := by decide
  have htrans : Transparent selfQuoting := ⟨by decide +kernel, by decide +kernel⟩
  obtain ⟨n, r, hr⟩ := h selfQuoting
  have hu : ¬ Unrolls selfQuoting n := fun hu =>
    not_textUnrolls_of_circular htrans textCircular_selfQuoting (hu selfQuoting htext)
  rw [run_expand_of_not_unrolls (ValueSource.answers_constant .null) hu] at hr
  cases hr

end Template

end JsonTemplate
