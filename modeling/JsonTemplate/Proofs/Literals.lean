import JsonTemplate.Proofs.Joining
import JsonTemplate.Proofs.Places
import JsonTemplate.Proofs.Signs
import JsonTemplate.Proofs.Termination

/-!
# Literals beside directives

A literal that stands alone as a value and mentions no directive is a value of the result, at its
place, unless it is written like a placeholder that is in use there: it is then taken for the block
or the expression (`Template.expand_literal_iff`).
-/

namespace JsonTemplate

open Text Json

variable {σ : Type}

/-! ## A literal among pieces -/

namespace Piece

/-- A literal that stands alone. -/
def literal (t : List Char) : Piece :=
  .chained ⟨t, [.literal t]⟩

/-- Only what a literal denotes counts. -/
theorem readAll?_literal_congr {t u : List Char} (h : literalText? t = literalText? u)
    (after : List Piece) : ∀ (before : List Piece) (p : Placeholders) (s : ReaderState),
      readAll? (before ++ literal t :: after) p s = readAll? (before ++ literal u :: after) p s
  | [], p, s => by
    simp only [List.nil_append, literal, readAll?, Chain.content?, h]
    rfl
  | .other c :: before, p, s => by
    simp only [List.cons_append, readAll?, readAll?_literal_congr h after before]
  | .chained chain :: before, p, s => by
    simp only [List.cons_append, readAll?, readAll?_literal_congr h after before]

/-- A literal may be replaced by a quoted text where the pieces are read. -/
theorem readFrom?_quoteAll_literal {t lit : List Char} {before after : List Piece}
    (h : cut t = before ++ literal lit :: after) (y : List Char) (p : Placeholders)
    {s : ReaderState} (hs : s.IsBetween) :
    readFrom? s (quoteAll (before ++ literal (quoted y) :: after) p).1
      = readAll? (before ++ literal (quoted y) :: after) p s := by
  have hsame : ∀ ps : List Piece, List.Forall₂ Stands ps ps :=
    fun ps => List.forall₂_same.2 fun piece _ => .same piece
  refine readFrom?_quoteAll_of_stands t p hs ?_
  rw [h]
  exact List.rel_append (hsame before) (.cons (.quoted _ y) (hsame after))

end Piece

/-! ## Expanding a string -/

namespace Expanding

/-- A string that names a block becomes an array. -/
theorem exists_array_of_named {source : ValueSource σ} {x : String} {s s' : Session σ} {v : Json}
    (h : (s.placeholders.namedBlock? x).isSome) {depth : Nat}
    (hrun : (expandString source depth x).run s = .ok (v, s')) : ∃ items, v = .array items := by
  have hget : (get : Expanding σ (Session σ)).run s = .ok (s, s) := rfl
  obtain ⟨⟨name, block⟩, hnamed⟩ := Option.isSome_iff_exists.1 h
  cases depth with
  | zero =>
    rw [expandString, run_bind, hget] at hrun
    simp only [hnamed] at hrun
    cases hrun
  | succ depth =>
    rw [expandString, run_bind, hget] at hrun
    simp only [hnamed] at hrun
    rw [expandBlock, run_bind] at hrun
    split at hrun
    · rename_i made s₁ hmade
      cases made with
      | ok items =>
        cases hrun
        exact ⟨items, rfl⟩
      | error e =>
        cases hrun
        exact ⟨[], rfl⟩
    · cases hrun

end Expanding

namespace Template

/-- In the text that is left when the blocks have been taken out, a literal stands alone that
denotes `x`, and it is the value at the place: whatever is quoted there instead, is read there. -/
def StandsAt (text : List Char) (place : List Step) (x : String) : Prop :=
  ∃ before lit after,
    Piece.cut (RepeatBlock.extract text {}).1 = before ++ .literal lit :: after
      ∧ literalText? lit = some x
      ∧ ∀ y : String, ∃ v, Json.read (Piece.quoteAll (before ++ .literal (quoted y.toList) :: after)
        (RepeatBlock.extract text {}).2).1 = .ok v ∧ v.at? place = some (.string y)

/-- The string is the placeholder of a block, or that of an expression that is not met before the
place. -/
def Captured (text : List Char) (place : List Step) (x : String) : Prop :=
  ((toPlainJson text {}).2.namedBlock? x).isSome
    ∨ ((toPlainJson text {}).2.expression? x).isSome
      ∧ ∀ v, Json.read (toPlainJson text {}).1 = .ok v → x ∉ v.valuesBefore place

theorem StandsAt.read {text : List Char} {place : List Step} {x : String}
    (h : StandsAt text place x) :
    ∃ v, Json.read (toPlainJson text {}).1 = .ok v ∧ v.at? place = some (.string x) := by
  obtain ⟨before, lit, after, hcut, hlit, hread⟩ := h
  obtain ⟨v, hv, hat⟩ := hread x
  have hquoted : literalText? (quoted x.toList) = literalText? lit := by
    rw [hlit, literalText?, read_quoted, String.ofList_toList]
    rfl
  rw [read_eq_ok_iff,
    Piece.readFrom?_quoteAll_literal hcut x.toList _ ReaderState.isBetween_initial,
    Piece.readAll?_literal_congr hquoted, ← hcut, ← read_quoteChains] at hv
  refine ⟨v, ?_, hat⟩
  unfold toPlainJson
  dsimp only
  cases hr : Json.read (quoteChains (RepeatBlock.extract text {}).1
      (RepeatBlock.extract text {}).2).1 with
  | error e =>
    rw [hr] at hv
    cases hv
  | ok w =>
    rw [hr] at hv
    cases hv
    rfl

/-- What a finished expansion makes of the string at a place. -/
theorem expandOnce_at {source : ValueSource σ} {text : List Char} {place : List Step} {x : String}
    {v : Json} {s : σ} {r : Except TemplateError Expanded × σ}
    (hread : Json.read (toPlainJson text {}).1 = .ok v) (hat : v.at? place = some (.string x))
    (hrun : (expandOnce source text).run.run s = .ok r) :
    ∃ e s' depth s₁ y s₂, r = (.ok e, s')
      ∧ s₁.placeholders.blocks = (toPlainJson text {}).2.blocks
      ∧ (Expanding.expandString source depth (if x ∈ v.valuesBefore place then x
          else (toPlainJson text {}).2.textOf x)).run s₁ = .ok (y, s₂)
      ∧ e.value.at? place = some y := by
  have htemplate : Placeholders.readTemplate text {}
      = (.ok ((toPlainJson text {}).2.reinstate v).1, ((toPlainJson text {}).2.reinstate v).2) := by
    unfold Placeholders.readTemplate
    dsimp only
    rw [hread]
  have hwell : ((toPlainJson text {}).2.reinstate v).2.WellFormed := by
    have := Placeholders.wellFormed_empty.readTemplate text
    rwa [htemplate] at this
  obtain ⟨w, s', hexpand, rfl⟩ := exists_session_of_run htemplate hrun
  obtain ⟨depth, s₁, y, s₂, halike, hstring, hy⟩ :=
    Expanding.expandValue_at hwell (Placeholders.reinstate_at hat) hexpand
  refine ⟨_, _, depth, s₁, y, s₂, rfl, ?_, hstring, hy⟩
  rw [halike.blocks, Placeholders.reinstate_blocks]

/-- What stands for a literal that is not captured is the literal. -/
theorem expandOnce_literal {source : ValueSource σ} {text : List Char} {place : List Step}
    {x : String} (hstands : StandsAt text place x) (hx : '@' ∉ x.toList)
    (hfree : ¬ Captured text place x) {s s' : σ} {e : Expanded}
    (hrun : (expandOnce source text).run.run s = .ok (.ok e, s')) :
    e.value.at? place = some (.string x) := by
  obtain ⟨v, hread, hat⟩ := hstands.read
  obtain ⟨e', s'', depth, s₁, y, s₂, hr, hblocks, hstring, hy⟩ := expandOnce_at hread hat hrun
  cases hr
  have hsame : (if x ∈ v.valuesBefore place then x else (toPlainJson text {}).2.textOf x) = x := by
    split
    · rfl
    · rename_i hbefore
      rw [Placeholders.textOf]
      cases hexpr : (toPlainJson text {}).2.expression? x with
      | none => rfl
      | some t =>
        refine absurd (.inr ⟨by rw [hexpr]; rfl, fun w hw => ?_⟩) hfree
        rw [hread] at hw
        cases hw
        exact hbefore
  have hunnamed : s₁.placeholders.namedBlock? x = none := by
    rw [Placeholders.namedBlock?_congr hblocks]
    exact Option.not_isSome_iff_eq_none.1 fun h => hfree (.inl h)
  rw [hsame, Expanding.run_expandString_of_unnamed hunnamed, resolveString_of_notMem source hx]
    at hstring
  cases hstring
  exact hy

/-- A captured literal is replaced, by an array or by the answers that its place's expression
gets. -/
theorem expandOnce_captured {text : List Char} {place : List Step} {x : String}
    (hstands : StandsAt text place x) (hx : '@' ∉ x.toList) (hcaptured : Captured text place x)
    {s' : Unit} {r : Except TemplateError Expanded}
    (hrun : (expandOnce ValueSource.signs text).run.run () = .ok (r, s')) :
    ∃ e, r = .ok e ∧ e.value.at? place ≠ some (.string x) := by
  obtain ⟨v, hread, hat⟩ := hstands.read
  obtain ⟨e, s'', depth, s₁, y, s₂, hr, hblocks, hstring, hy⟩ := expandOnce_at hread hat hrun
  cases hr
  refine ⟨e, rfl, ?_⟩
  rw [hy]
  have hwell : (toPlainJson text {}).2.WellFormed :=
    (Placeholders.wellFormed_empty.extract text).quoteChains _
  have hnamed : ∀ z, s₁.placeholders.namedBlock? z = (toPlainJson text {}).2.namedBlock? z :=
    Placeholders.namedBlock?_congr hblocks
  rcases hcaptured with hblock | ⟨hexpr, hbefore⟩
  · have hnone : (toPlainJson text {}).2.expression? x = none := by
      refine Option.not_isSome_iff_eq_none.1 fun h => ?_
      obtain ⟨n, rfl⟩ := hwell.ofExpression_of_expression? h
      rw [Placeholders.namedBlock?, Placeholder.blockName?_ofExpression] at hblock
      cases hblock
    have hsame : (if x ∈ v.valuesBefore place then x
        else (toPlainJson text {}).2.textOf x) = x := by
      rw [Placeholders.textOf, hnone]
      exact ite_self x
    rw [hsame] at hstring
    obtain ⟨items, rfl⟩ := Expanding.exists_array_of_named (by rw [hnamed]; exact hblock) hstring
    intro heq
    cases heq
  · obtain ⟨t, ht⟩ := Option.isSome_iff_exists.1 hexpr
    rw [if_neg (hbefore v hread), Placeholders.textOf, ht, Option.getD_some] at hstring
    have hunnamed : s₁.placeholders.namedBlock? t = none := by
      obtain ⟨before, after, hmem, -⟩ := List.lookup_eq_some_iff.1 ht
      rw [Placeholders.namedBlock?, hwell.expression (x, t) (by rw [hmem]; simp)]
      rfl
    -- Answered with signs throughout, the expression has one in what it gives, and `x` has none.
    have hsign : '@' ∈ t.toList :=
      Placeholders.Signed.sign_mem (Placeholders.Signed.toPlainJson (by
        intro e he
        cases he) text) ht
    rw [Expanding.run_expandString_of_unnamed hunnamed] at hstring
    rcases hresolve : (Resolving.resolveString ValueSource.signs t).run s₁.toLedger with
      halt | ⟨w, l⟩
    · rw [hresolve] at hstring
      cases hstring
    · rw [hresolve] at hstring
      cases hstring
      obtain ⟨z, rfl, hz⟩ := Resolving.signed_resolveString hsign hresolve
      intro heq
      cases heq
      exact hx hz

/-- Whatever the source, a literal that stands alone and has no sign is in the result at its place,
exactly if it is not captured. -/
theorem expand_literal_iff (t text : List Char) (c : Container) (place : List Step) (x : String)
    (hplan : Plan.ofText? t = some (.once c text)) (hu : Unrolls t)
    (hstands : StandsAt text place x) (hx : '@' ∉ x.toList) :
    (∀ (σ : Type) (source : ValueSource σ) (s s' : σ) (e : Expanded),
      (expand source t).run.run s = .ok (.ok e, s') → e.value.at? place = some (.string x))
    ↔ ¬ Captured text place x := by
  constructor
  · intro h hcaptured
    obtain ⟨⟨r, s'⟩, hr⟩ := run_expand_of_unrolls ValueSource.answers_signs hu ()
    have hrun := hr
    rw [expand, hplan] at hrun
    obtain ⟨e, rfl, hne⟩ := expandOnce_captured hstands hx hcaptured hrun
    exact hne (h Unit ValueSource.signs () s' e hr)
  · intro hfree σ source s s' e hrun
    rw [expand, hplan] at hrun
    exact expandOnce_literal hstands hx hfree hrun

/-- A text without an underscore is no placeholder. -/
theorem not_captured_of_notMem {text : List Char} {place : List Step} {x : String}
    (hx : '_' ∉ x.toList) : ¬ Captured text place x := by
  have hwell : (toPlainJson text {}).2.WellFormed :=
    (Placeholders.wellFormed_empty.extract text).quoteChains _
  rintro (hblock | ⟨hexpr, -⟩)
  · refine hx ?_
    obtain ⟨b, hb⟩ := Option.isSome_iff_exists.1 hblock
    obtain ⟨name, hname, -⟩ := Option.bind_eq_some_iff.1 hb
    obtain ⟨u, hu, -⟩ := Option.bind_eq_some_iff.1 hname
    rw [eq_of_afterStart? hu]
    exact List.mem_append_left _ (by decide)
  · obtain ⟨n, rfl⟩ := hwell.ofExpression_of_expression? hexpr
    refine hx ?_
    rw [Placeholder.toList_ofExpression]
    simp

/-- A literal and a concatenation after it. -/
def neighbours (x : String) : List Char :=
  "[\"".toList ++ x.toList ++ "\", \"x\" + @y]".toList

/-- What comes after the literal. -/
def neighbour : List Piece :=
  [.other ',', .other ' ', .chained ⟨"\"x\" + @y".toList, [.literal "\"x\"".toList,
    .token "@y".toList]⟩, .other ']']

theorem readAll?_neighbours (y : String) (p : Placeholders) :
    Piece.readAll? ([.other '['] ++ .literal (quoted y.toList) :: neighbour) p .initial
      = some (.array [.string y, .string (Placeholder.ofExpression p.nextExpression)]) := by
  have hquoted : literalText? (quoted y.toList) = some y := by
    rw [literalText?, read_quoted, String.ofList_toList]
    rfl
  have hitem : ReaderState.takeString? ⟨[], .firstItem⟩ y = some ⟨[], .afterItem [.string y]⟩ := by
    simp [ReaderState.takeString?, ReaderState.openString?, ReaderState.endString,
      ReaderState.deliver]
  have hnext : ∀ x, ReaderState.takeString? ⟨[], .nextItem [.string y]⟩ x
      = some ⟨[], .afterItem [.string x, .string y]⟩ := by
    simp [ReaderState.takeString?, ReaderState.openString?, ReaderState.endString,
      ReaderState.deliver]
  have hopen : (ReaderState.initial.step '[').toOption = some ⟨[], .firstItem⟩ := rfl
  have hcomma : (ReaderState.step ⟨[], .afterItem [.string y]⟩ ',').toOption
      = some ⟨[], .nextItem [.string y]⟩ := rfl
  have hblank : (ReaderState.step ⟨[], .nextItem [.string y]⟩ ' ').toOption
      = some ⟨[], .nextItem [.string y]⟩ := rfl
  simp only [List.cons_append, List.nil_append, neighbour, Piece.literal, Piece.readAll?, hopen,
    hquoted, hitem, hcomma, hblank, Option.bind_some, Chain.content?]
  have hany :
      [Operand.literal "\"x\"".toList, Operand.token "@y".toList].any Operand.isToken = true :=
    rfl
  rw [if_pos hany, Option.bind_some, hnext]
  rfl

theorem standsAt_neighbours {x : String} (lit : List Char)
    (hcut : Piece.cut (RepeatBlock.extract (neighbours x) {}).1
      = [.other '['] ++ .literal lit :: neighbour)
    (hlit : literalText? lit = some x) : StandsAt (neighbours x) [.item 0] x := by
  refine ⟨_, _, _, hcut, hlit, fun y => ⟨.array [.string y, .string (Placeholder.ofExpression
    (RepeatBlock.extract (neighbours x) {}).2.nextExpression)], ?_, rfl⟩⟩
  rw [read_eq_ok_iff, Piece.readFrom?_quoteAll_literal hcut _ _ ReaderState.isBetween_initial,
    readAll?_neighbours]

theorem unrolls_neighbours {x : String}
    (h : ((expand (ValueSource.constant .null) (neighbours x)).run.run ()).toOption.isSome = true) :
    Unrolls (neighbours x) := by
  by_contra hu
  rw [run_expand_of_not_unrolls (ValueSource.answers_constant .null) hu] at h
  cases h

theorem expand_literal_b : ∃ e,
    (expand (ValueSource.constant .null) (neighbours "b")).run.run () = .ok (.ok e, ())
      ∧ e.value.at? [.item 0] = some (.string "b") := by
  have hstands : StandsAt (neighbours "b") [.item 0] "b" :=
    standsAt_neighbours "\"b\"".toList (by decide +kernel) (by decide +kernel)
  have hplan : Plan.ofText? (neighbours "b") = some (.once .array (neighbours "b")) := by
    decide +kernel
  have hliteral := (expand_literal_iff (neighbours "b") (neighbours "b") .array [.item 0] "b" hplan
    (unrolls_neighbours (by decide +kernel)) hstands (by decide)).2
    (not_captured_of_notMem (by decide))
  have hok : ((expand (ValueSource.constant .null) (neighbours "b")).run.run ()).toOption.map
      (fun r => r.1.toOption.isSome) = some true := by
    decide +kernel
  rcases hrun : (expand (ValueSource.constant .null) (neighbours "b")).run.run () with
    halt | ⟨e | e, s⟩
  · rw [hrun] at hok
    cases hok
  · rw [hrun] at hok
    cases hok
  · exact ⟨e, rfl, hliteral Unit _ () s e hrun⟩

/-- A literal that is written like the placeholder of the concatenation after it changes places with
what the concatenation gives. -/
theorem expand_literal_changed : ¬ ∀ (t text : List Char) (c : Container) (place : List Step)
    (x : String), Plan.ofText? t = some (.once c text) → StandsAt text place x → '@' ∉ x.toList →
      ∀ (σ : Type) (source : ValueSource σ) (s s' : σ) (e : Expanded),
        (expand source t).run.run s = .ok (.ok e, s') → e.value.at? place = some (.string x) := by
  intro h
  have hstands : StandsAt (neighbours "__EXPR_0__") [.item 0] "__EXPR_0__" :=
    standsAt_neighbours "\"__EXPR_0__\"".toList (by decide +kernel) (by decide +kernel)
  have hplan : Plan.ofText? (neighbours "__EXPR_0__")
      = some (.once .array (neighbours "__EXPR_0__")) := by
    decide +kernel
  have hvalue : ((expand (ValueSource.constant .null) (neighbours "__EXPR_0__")).run.run
      ()).toOption.bind (fun r => r.1.toOption.bind fun e =>
        (e.value.at? [.item 0]).bind Json.toString?) = some "xnull" := by
    decide +kernel
  rcases hrun : (expand (ValueSource.constant .null) (neighbours "__EXPR_0__")).run.run () with
    halt | ⟨e | r, s⟩
  · rw [hrun] at hvalue
    cases hvalue
  · rw [hrun] at hvalue
    cases hvalue
  · have hat := h _ _ .array [.item 0] "__EXPR_0__" hplan hstands (by decide) Unit _ () s r hrun
    have hsame : (r.value.at? [.item 0]).bind Json.toString? = some "xnull" := by
      rwa [hrun] at hvalue
    rw [hat] at hsame
    exact absurd (Option.some.inj hsame) (by decide)

end Template

end JsonTemplate
