import JsonTemplate.Proofs.Agreement
import JsonTemplate.Proofs.Answers
import JsonTemplate.Proofs.Run
import JsonTemplate.Proofs.Segments

/-!
# Signs

A text that mentions a directive has the sign of a directive, however it is read and cut: each
expression that is recorded has one (`Placeholders.Signed.toPlainJson`), and where all answers are
signs, what it resolves to has one (`Resolving.signed_resolveString`).
-/

namespace JsonTemplate

open Text Json

/-! ## Signs stay -/

/-- A step within a string adds a character to what is read, or none; a sign is one. -/
theorem Json.read_of_stringStep {read read' : List Char} {part part' : StringPart} {c : Char}
    (h : ReaderState.stringStep read part c = .ok (read', part')) :
    read ⊆ read' ∧ (c = '@' → '@' ∈ read') := by
  have hsign : hexValue? '@' = none := by decide
  cases ReaderState.stringSteps_of_stringStep h with
  | plain => exact ⟨List.subset_cons_self _ _, fun hc => hc ▸ List.mem_cons_self⟩
  | backslash | code | pairBackslash | pairLetter =>
    exact ⟨List.Subset.refl _, fun hc => absurd hc (by decide)⟩
  | escaped hc =>
    refine ⟨List.subset_cons_self _ _, ?_⟩
    rintro rfl
    cases hc
  | digit hc | high hc =>
    exact ⟨List.Subset.refl _, fun h => absurd h (ReaderState.ne_of_hexValue? hsign hc)⟩
  | char hc | low hc =>
    exact ⟨List.subset_cons_self _ _, fun h => absurd h (ReaderState.ne_of_hexValue? hsign hc)⟩

theorem Json.sign_mem_of_spelled? : ∀ {t read x : List Char} {part : StringPart},
    spelled? read part t = some x → read ⊆ x ∧ ('@' ∈ t → '@' ∈ x)
  | [], _, _, _, h => by cases h
  | c :: t, read, x, part, h => by
    obtain ⟨rfl, -, rfl, rfl⟩ | ⟨read', part', -, hs, h⟩ := spelled?_cons_eq_some h
    · exact ⟨List.Subset.refl _, fun hsign => absurd hsign (by decide)⟩
    · obtain ⟨hsub, hsign⟩ := Json.read_of_stringStep hs
      obtain ⟨hrest, hsign'⟩ := sign_mem_of_spelled? h
      refine ⟨fun d hd => hrest (hsub hd), fun hmem => ?_⟩
      rcases List.mem_cons.1 hmem with hc | hmem
      · exact hrest (hsign hc.symm)
      · exact hsign' hmem

/-- A string has each sign that is written in it. -/
theorem Json.sign_mem_of_read {t : List Char} {s : String}
    (h : Json.read ('"' :: t) = .ok (.string s)) (ht : '@' ∈ t) : '@' ∈ s.toList := by
  obtain ⟨x, hx, rfl, hblank⟩ := exists_spelled?_of_read h
  have happ := Operand.splitQuoted_append false t
  rw [← happ, List.mem_append] at ht
  rw [String.toList_ofList, List.mem_reverse]
  rcases ht with ht | ht
  · exact (sign_mem_of_spelled? hx).2 ht
  · have := hblank '@' ht
    cases this

theorem Text.mem_trim {c : Char} (hc : isBlank c = false) {t : List Char} (h : c ∈ t) :
    c ∈ trim t := by
  have hdrop : ∀ {u : List Char}, c ∈ u → c ∈ u.dropWhile isBlank := by
    intro u hu
    have hsplit := List.takeWhile_append_dropWhile (p := isBlank) (l := u)
    rw [← hsplit, List.mem_append] at hu
    refine hu.resolve_left fun htake => ?_
    have := List.all_eq_true.1 List.all_takeWhile c htake
    rw [hc] at this
    cases this
  rw [trim, trimEnd, List.mem_reverse]
  exact hdrop (List.mem_reverse.2 (hdrop h))

/-- A directive, or a text with a sign. -/
def Segment.Signed : Segment → Prop
  | .literal s | .verbatim s => '@' ∈ s.toList
  | .directive _ => True

theorem Segment.sign_mem_unquote? {quote : Char} {t inner : List Char} (hquote : '@' ≠ quote)
    (h : unquote? quote t = some inner) (ht : '@' ∈ t) : '@' ∈ inner := by
  unfold unquote? at h
  split at h
  · rename_i hends
    cases h
    obtain ⟨hlength, hhead, hlast⟩ := hends
    cases t with
    | nil => cases ht
    | cons c t =>
      cases hhead
      have ht := (List.mem_cons.1 ht).resolve_left hquote
      have hne : t ≠ [] := by
        rintro rfl
        simp at hlength
      have happ := List.dropLast_concat_getLast hne
      rw [List.getLast?_cons_of_ne_nil hne, List.getLast?_eq_some_getLast hne] at hlast
      rw [← happ, Option.some.inj hlast, List.mem_append] at ht
      exact ht.resolve_right fun hmem => hquote (List.mem_singleton.1 hmem)
  · cases h

theorem Segment.signed_parse {t : List Char} (ht : '@' ∈ t) : (parse t).Signed := by
  unfold parse
  split
  · trivial
  · split
    · rename_i inner hinner
      rw [Signed, decode]
      split
      · rename_i s hs
        have hhead : t.head? = some '"' := by
          unfold unquote? at hinner
          split at hinner
          · rename_i hends
            exact hends.2.1
          · cases hinner
        obtain ⟨u, rfl⟩ := List.head?_eq_some_iff.1 hhead
        exact Json.sign_mem_of_read hs ((List.mem_cons.1 ht).resolve_left (by decide))
      · rw [String.toList_ofList]
        exact sign_mem_unquote? (by decide) hinner ht
    · split
      · rename_i inner hinner
        rw [Signed, String.toList_ofList]
        exact sign_mem_unquote? (by decide) hinner ht
      · rwa [Signed, String.toList_ofList]

/-- Only signs between parts are lost in cutting. -/
theorem exists_mem_splitFrom {c : Char} (hc : c ≠ '+') : ∀ {t : List Char} {s : Cursor}, c ∈ t →
    ∃ part ∈ splitFrom s t, c ∈ part
  | [], _, h => by cases h
  | d :: t, s, h => by
    rw [splitFrom]
    split
    · rename_i hcut
      obtain ⟨part, hpart, hmem⟩ := exists_mem_splitFrom hc (s := .top)
        ((List.mem_cons.1 h).resolve_left fun hd => hc (hd.trans hcut.2))
      exact ⟨part, List.mem_cons_of_mem _ hpart, hmem⟩
    · obtain ⟨p, ps, hp⟩ := List.exists_cons_of_ne_nil (splitFrom_ne_nil (s.next d) t)
      rw [hp, List.modifyHead_cons]
      rcases List.mem_cons.1 h with rfl | h
      · exact ⟨_, List.mem_cons_self, List.mem_cons_self⟩
      · obtain ⟨part, hpart, hmem⟩ := exists_mem_splitFrom hc (s := s.next d) h
        rw [hp] at hpart
        rcases List.mem_cons.1 hpart with rfl | hpart
        · exact ⟨_, List.mem_cons_self, List.mem_cons_of_mem d hmem⟩
        · exact ⟨part, List.mem_cons_of_mem _ hpart, hmem⟩

theorem Expression.exists_signed_of_parse {t : List Char} (ht : '@' ∈ t) :
    ∃ segment ∈ parse t, segment.Signed := by
  obtain ⟨part, hpart, hsign⟩ := exists_mem_splitFrom (by decide) (s := .top) ht
  exact ⟨_, List.mem_map.2 ⟨part, hpart, rfl⟩, Segment.signed_parse (Text.mem_trim rfl hsign)⟩

/-- The source that has every method and answers each call with a sign. -/
def ValueSource.signs : ValueSource Unit where
  has _ _ := return true
  call _ _ _ := return .string "@"

theorem ValueSource.answers_signs : signs.Answers :=
  fun _ _ _ _ => ⟨_, rfl⟩

namespace Resolving

open ValueSource (signs)

theorem run_call_signs (namespaceName method : String) (args : List Json) (l : Ledger Unit) :
    (call signs namespaceName method args).run l = .ok (.ok (.string "@"), l) :=
  rfl

theorem finish_sign (shape : ArgumentShape) : shape.finish (.string "@") = .string "@" := by
  cases shape <;> rfl

theorem run_callAdapted_signs (namespaceName method : String) (args : List Json)
    (l : Ledger Unit) :
    (callAdapted signs namespaceName method args).run l = .ok (.ok (.string "@"), l) := by
  rw [callAdapted, run_bind, run_call_signs]
  dsimp only
  rw [finish_sign]
  rfl

theorem run_resolve_signs (d : Directive) (l : Ledger Unit) :
    ∃ l', (resolve signs d).run l = .ok (.string "@", l') := by
  unfold resolve
  split
  · rename_i method _
    have hhas : (has signs d.name method).run l = .ok (true, l) := rfl
    refine ⟨l, ?_⟩
    rw [resolveQualified, run_bind, hhas]
    dsimp only
    rw [if_pos rfl, run_bind, run_callAdapted_signs]
    rfl
  · unfold resolveName
    split
    · exact ⟨l, rfl⟩
    · exact ⟨_, rfl⟩

theorem signed_segmentText {segment : Segment} (h : segment.Signed) {s : String}
    {l l' : Ledger Unit} (hrun : (segmentText signs segment).run l = .ok (s, l')) :
    '@' ∈ s.toList := by
  cases segment with
  | literal x | verbatim x =>
    cases hrun
    exact h
  | directive d =>
    obtain ⟨l₁, hd⟩ := run_resolve_signs d l
    rw [segmentText, run_bind, hd] at hrun
    cases hrun
    decide

theorem signed_segmentTexts : ∀ {segments : List Segment} {texts : List String}
    {l l' : Ledger Unit}, (segmentTexts signs segments).run l = .ok (texts, l') →
      (∃ segment ∈ segments, segment.Signed) → ∃ s ∈ texts, '@' ∈ s.toList
  | [], _, _, _, _, h => by
    obtain ⟨segment, hmem, -⟩ := h
    cases hmem
  | segment :: rest, texts, l, l', hrun, h => by
    rw [segmentTexts, run_bind] at hrun
    split at hrun
    · rename_i s l₁ hs
      rw [run_bind] at hrun
      split at hrun
      · rename_i more l₂ hmore
        cases hrun
        obtain ⟨signed, hmem, hsigned⟩ := h
        rcases List.mem_cons.1 hmem with rfl | hmem
        · exact ⟨s, List.mem_cons_self, signed_segmentText hsigned hs⟩
        · obtain ⟨x, hx, hsign⟩ := signed_segmentTexts hmore ⟨signed, hmem, hsigned⟩
          exact ⟨x, List.mem_cons_of_mem s hx, hsign⟩
      · cases hrun
    · cases hrun

theorem signed_resolveExpression {t : List Char} {v : Json} {l l' : Ledger Unit} (ht : '@' ∈ t)
    (h : (resolveExpression signs t).run l = .ok (v, l')) :
    ∃ x, v = .string x ∧ '@' ∈ x.toList := by
  have hsigned := Expression.exists_signed_of_parse ht
  unfold resolveExpression at h
  split at h
  · rename_i d _
    obtain ⟨l₁, hd⟩ := run_resolve_signs d l
    rw [hd] at h
    cases h
    exact ⟨"@", rfl, by decide⟩
  · cases h
    exact ⟨_, rfl, by rwa [String.toList_ofList]⟩
  · rw [run_bind] at h
    split at h
    · rename_i texts l₁ htexts
      cases h
      obtain ⟨s, hs, hsign⟩ := signed_segmentTexts htexts hsigned
      refine ⟨_, rfl, ?_⟩
      rw [String.toList_join, List.mem_flatMap]
      exact ⟨s, hs, hsign⟩
    · cases h

/-- Where all answers are signs, a string with a sign is replaced by one with a sign. -/
theorem signed_resolveString {s : String} {v : Json} {l l' : Ledger Unit} (hs : '@' ∈ s.toList)
    (h : (resolveString signs s).run l = .ok (v, l')) : ∃ x, v = .string x ∧ '@' ∈ x.toList := by
  unfold resolveString at h
  dsimp only at h
  split at h
  · rename_i d _
    obtain ⟨l₁, hd⟩ := run_resolve_signs d l
    rw [hd] at h
    cases h
    exact ⟨"@", rfl, by decide⟩
  · split at h
    · exact signed_resolveExpression hs h
    · cases h
      exact ⟨s, rfl, hs⟩

end Resolving

/-! ## Expressions have signs -/

/-- Each expression of the table has a sign. -/
def Placeholders.Signed (p : Placeholders) : Prop :=
  ∀ e ∈ p.expressions, '@' ∈ e.2.toList

theorem Operand.sign_mem_text {t rest : List Char} {o : Operand} (h : split? t = some (o, rest))
    (ho : o.isToken = true) : '@' ∈ o.text := by
  rcases split?_eq_some h with ⟨u, -, rfl, -⟩ | ⟨k, -, rfl⟩
  · cases ho
  · rw [text, Token.text]
    exact List.mem_cons_self

theorem Chain.sign_mem_text {t rest : List Char} {chain : Chain}
    (h : split? t = some (chain, rest)) (hany : chain.operands.any Operand.isToken = true) :
    '@' ∈ chain.text := by
  obtain ⟨o, rest', ho, -, rfl⟩ := split?_eq_some h
  obtain ⟨hjoined, htaken⟩ := joined_splitJoined rest'
  obtain ⟨p, hp, htoken⟩ := List.any_eq_true.1 hany
  rcases List.mem_cons.1 hp with rfl | hp
  · exact List.mem_append_left _ (Operand.sign_mem_text ho htoken)
  · obtain ⟨u, rest'', hp'⟩ := htaken p hp
    exact List.mem_append_right _ (hjoined.subset hp (Operand.sign_mem_text hp' htoken))

namespace Placeholders.Signed

variable {p : Placeholders}

theorem toPlain (hp : p.Signed) {t rest : List Char} {chain : Chain}
    (h : Chain.split? t = some (chain, rest)) : (chain.toPlain p).2.Signed := by
  unfold Chain.toPlain
  split
  · rename_i hany
    split
    · intro e he
      rcases List.mem_append.1 he with he | he
      · exact hp e he
      · rw [List.mem_singleton.1 he, String.toList_ofList]
        exact Text.mem_trim rfl (Chain.sign_mem_text h hany)
    · exact hp
  · exact hp

theorem quoteChains (hp : p.Signed) (t : List Char) : (quoteChains t p).2.Signed :=
  quoteChains_induction (fun _ h hq => hq.toPlain h) t p hp

theorem toPlainJson (hp : p.Signed) (t : List Char) : (toPlainJson t p).2.Signed :=
  quoteChains (RepeatBlock.extractFrom_induction (P := Signed) (fun _ _ _ hq _ => hq) [] t p
    trivial hp) _

theorem sign_mem (hp : p.Signed) {x e : String} (h : p.expression? x = some e) :
    '@' ∈ e.toList := by
  obtain ⟨before, after, hmem, -⟩ := List.lookup_eq_some_iff.1 h
  exact hp (x, e) (by rw [hmem]; simp)

end Placeholders.Signed

end JsonTemplate
