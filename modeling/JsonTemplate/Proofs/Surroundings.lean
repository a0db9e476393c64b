import Mathlib.Data.List.TakeWhile
import JsonTemplate.Proofs.Answers
import JsonTemplate.Proofs.Marks
import JsonTemplate.Template

/-!
# What stands around a template

A text with a root is other text, the root up to the delimiter that closes it last, blanks and a
repeat mark if there is one, and other text again (`exists_embedded`). What is done with it depends
on the two parts in the middle, which are the template as it is written; so cutting a text down to
them changes nothing (`Template.expand_writtenTemplate`).
-/

namespace JsonTemplate

open Text

/-! ## Delimiters -/

theorem Container.eq_of_ofOpening? {c : Char} {container : Container}
    (h : ofOpening? c = some container) : c = '\x7b' ∨ c = '[' := by
  unfold ofOpening? at h
  split at h
  · exact .inl ‹_›
  · split at h
    · exact .inr ‹_›
    · cases h

/-- What closes a container opens none. -/
theorem Container.ne_closing {c : Char} {container : Container}
    (h : ofOpening? c = some container) : c ≠ container.closing := by
  rcases eq_of_ofOpening? h with rfl | rfl <;> cases h <;> decide

namespace Root

theorem find?_append {lead : List Char} (h : ∀ c ∈ lead, Container.ofOpening? c = none)
    {c : Char} {container : Container} (hc : Container.ofOpening? c = some container)
    (t : List Char) : find? (lead ++ c :: t) = some ⟨container, lead, c :: t⟩ := by
  induction lead with
  | nil => rw [List.nil_append, find?, hc]
  | cons d lead ih =>
    rw [List.cons_append, find?, h d List.mem_cons_self,
      ih fun e he => h e (List.mem_cons_of_mem d he)]
    rfl

/-- A root is the first delimiter that opens one, with all that follows. -/
theorem exists_of_find? {t : List Char} {r : Root} (h : find? t = some r) :
    t = r.before ++ r.text ∧ (∀ c ∈ r.before, Container.ofOpening? c = none)
      ∧ ∃ c u, r.text = c :: u ∧ Container.ofOpening? c = some r.container := by
  induction t generalizing r with
  | nil => cases h
  | cons c t ih =>
    rw [find?] at h
    cases hc : Container.ofOpening? c with
    | some container =>
      rw [hc] at h
      cases h
      exact ⟨rfl, nofun, c, t, rfl, hc⟩
    | none =>
      rw [hc] at h
      obtain ⟨r', hr', rfl⟩ := Option.map_eq_some_iff.1 h
      obtain ⟨ht, hbefore, hopening⟩ := ih hr'
      refine ⟨by rw [ht]; rfl, fun d hd => ?_, hopening⟩
      rcases List.mem_cons.1 hd with rfl | hd
      · exact hc
      · exact hbefore d hd

theorem find?_suffix {t : List Char} {r : Root} (h : find? t = some r) : r.text <:+ t :=
  ⟨r.before, (exists_of_find? h).1.symm⟩

theorem splitAfterLast_of_notMem {c : Char} {t : List Char} (h : c ∉ t) :
    splitAfterLast c t = (t, []) := by
  have hpass : ∀ d ∈ t.reverse, (d != c) = true := by
    intro d hd
    rw [bne_iff_ne]
    rintro rfl
    exact h (List.mem_reverse.1 hd)
  rw [splitAfterLast, List.dropWhile_eq_nil_iff.2 hpass]

theorem splitAfterLast_append_cons {c : Char} {v : List Char} (h : c ∉ v) (u : List Char) :
    splitAfterLast c (u ++ c :: v) = (u ++ [c], v) := by
  have hpass : ∀ d ∈ v.reverse, (d != c) = true := by
    intro d hd
    rw [bne_iff_ne]
    rintro rfl
    exact h (List.mem_reverse.1 hd)
  have hreverse : (u ++ c :: v).reverse = v.reverse ++ c :: u.reverse := by
    simp
  have hdrop : (u ++ c :: v).reverse.dropWhile (· != c) = c :: u.reverse := by
    rw [hreverse, List.dropWhile_append_of_pos hpass, List.dropWhile_cons_of_neg (by simp)]
  have htake : (u ++ c :: v).reverse.takeWhile (· != c) = v.reverse := by
    rw [hreverse, List.takeWhile_append_of_pos hpass, List.takeWhile_cons_of_neg (by simp),
      List.append_nil]
  rw [splitAfterLast, hdrop, htake]
  simp

/-- A text is cut after a last occurrence, or not at all. -/
theorem splitAfterLast_cases (c : Char) (t : List Char) :
    (c ∉ t ∧ splitAfterLast c t = (t, []))
      ∨ ∃ u v, c ∉ v ∧ t = u ++ c :: v ∧ splitAfterLast c t = (u ++ [c], v) := by
  by_cases h : c ∈ t
  · obtain ⟨v, u, hrev, hv⟩ := List.eq_append_cons_of_mem (List.mem_reverse.2 h)
    have ht : t = u.reverse ++ c :: v.reverse := by
      rw [← List.reverse_reverse t, hrev]
      simp
    have hv : c ∉ v.reverse := fun hm => hv (List.mem_reverse.1 hm)
    exact .inr ⟨u.reverse, v.reverse, hv, ht, by rw [ht, splitAfterLast_append_cons hv]⟩
  · exact .inl ⟨h, splitAfterLast_of_notMem h⟩

end Root

/-! ## Repeat marks -/

/-- A mark at the head of a text is blanks and a repeat mark with a count. -/
theorem headMark?_eq_some_iff {t rest : List Char} {n : Nat} :
    headMark? t = some (n, rest) ↔ ∃ b ds, t = b ++ (RepeatBlock.mark ds ++ rest)
      ∧ (∀ c ∈ b, isBlank c = true) ∧ RepeatBlock.count? ds = some n := by
  constructor
  · intro h
    obtain ⟨⟨ds, rest'⟩, hmark, h⟩ := Option.bind_eq_some_iff.1 h
    obtain ⟨n', hn, heq⟩ := Option.map_eq_some_iff.1 h
    cases heq
    refine ⟨t.takeWhile isBlank, ds, ?_, fun c hc => List.all_eq_true.1 List.all_takeWhile c hc, hn⟩
    rw [← (RepeatBlock.splitMark?_eq_some_iff.1 hmark).1, trimStart,
      List.takeWhile_append_dropWhile]
  · rintro ⟨b, ds, rfl, hb, hn⟩
    have hstart : trimStart (b ++ (RepeatBlock.mark ds ++ rest)) = RepeatBlock.mark ds ++ rest := by
      rw [trimStart, List.dropWhile_append_of_pos hb]
      exact List.dropWhile_cons_of_neg (by decide)
    simp only [headMark?, hstart, RepeatBlock.splitMark?_mark hn, Option.bind_some, hn,
      Option.map_some]

/-- A mark with its blanks is found before any text. -/
theorem headMark?_append {mark : List Char} {n : Nat} (h : headMark? mark = some (n, []))
    (rest : List Char) : headMark? (mark ++ rest) = some (n, rest) := by
  obtain ⟨b, ds, rfl, hb, hn⟩ := headMark?_eq_some_iff.1 h
  exact headMark?_eq_some_iff.2 ⟨b, ds, by simp, hb, hn⟩

/-- The text before the rest is the mark with its blanks. -/
theorem exists_eq_append_of_headMark? {t rest : List Char} {n : Nat}
    (h : headMark? t = some (n, rest)) :
    ∃ mark, t = mark ++ rest ∧ headMark? mark = some (n, []) := by
  obtain ⟨b, ds, rfl, hb, hn⟩ := headMark?_eq_some_iff.1 h
  exact ⟨b ++ RepeatBlock.mark ds, by simp, headMark?_eq_some_iff.2 ⟨b, ds, by simp, hb, hn⟩⟩

/-! ## A template within a text -/

/-- Between other texts stand a root, which ends with the delimiter that closes it last, and a
repeat mark with the blanks before it, or nothing. -/
structure Embedded (lead : List Char) (container : Container) (text mark trail : List Char) :
    Prop where
  noOpening : ∀ c ∈ lead, Container.ofOpening? c = none
  opening : ∃ c u, text = c :: u ∧ Container.ofOpening? c = some container
  /-- A root that is not closed goes on to the end. -/
  closing : (∃ u, text = u ++ [container.closing]) ∨ container.closing ∉ text ∧ mark ++ trail = []
  noClosing : container.closing ∉ mark ++ trail
  marked : mark = [] ∧ headMark? trail = none ∨ ∃ n, headMark? mark = some (n, [])

/-- Every text with a root is divided like that. -/
theorem exists_embedded {t : List Char} {r : Root} (h : Root.find? t = some r) :
    ∃ text mark trail, t = r.before ++ (text ++ (mark ++ trail))
      ∧ Embedded r.before r.container text mark trail := by
  obtain ⟨ht, hbefore, c, u, htext, hc⟩ := Root.exists_of_find? h
  have hmark : ∀ after, ∃ mark trail, after = mark ++ trail
      ∧ (mark = [] ∧ headMark? trail = none ∨ ∃ n, headMark? mark = some (n, [])) := by
    intro after
    cases hm : headMark? after with
    | none => exact ⟨[], after, rfl, .inl ⟨rfl, hm⟩⟩
    | some p =>
      obtain ⟨mark, heq, hmark⟩ := exists_eq_append_of_headMark? hm
      exact ⟨mark, p.2, heq, .inr ⟨p.1, hmark⟩⟩
  rcases Root.splitAfterLast_cases r.container.closing r.text with ⟨hno, -⟩ | ⟨v, w, hw, hv, -⟩
  · exact ⟨r.text, [], [], by simpa using ht, hbefore, ⟨c, u, htext, hc⟩, .inr ⟨hno, rfl⟩, nofun,
      .inl ⟨rfl, rfl⟩⟩
  · obtain ⟨mark, trail, hafter, hmarked⟩ := hmark w
    refine ⟨v ++ [r.container.closing], mark, trail, ?_, hbefore, ?_, .inl ⟨v, rfl⟩,
      hafter ▸ hw, hmarked⟩
    · rw [ht, hv, hafter]
      simp
    · rw [hv] at htext
      cases v with
      | nil => exact absurd (List.cons.inj htext).1.symm (Container.ne_closing hc)
      | cons d v =>
        obtain ⟨rfl, -⟩ := List.cons.inj htext
        exact ⟨d, _, rfl, hc⟩

/-- What is to be done with a root, given the count of the mark after it. A mark after an object
counts for nothing. -/
def planOf (container : Container) (text : List Char) : (count : Option Nat) → Plan
  | some count => if container = .array then .repeated text count else .once container text
  | none => .once container text

namespace Embedded

variable {lead text mark trail : List Char} {container : Container}

/-- The root of a divided text is where the division says, and ends there. -/
theorem find? (h : Embedded lead container text mark trail) :
    Root.find? (lead ++ (text ++ (mark ++ trail)))
      = some ⟨container, lead, text ++ (mark ++ trail)⟩ := by
  obtain ⟨c, u, rfl, hc⟩ := h.opening
  exact Root.find?_append h.noOpening hc _

theorem split (h : Embedded lead container text mark trail) :
    Root.split ⟨container, lead, text ++ (mark ++ trail)⟩ = (text, mark ++ trail) := by
  rw [Root.split]
  rcases h.closing with ⟨u, rfl⟩ | ⟨hno, hnil⟩
  · rw [List.append_assoc]
    exact Root.splitAfterLast_append_cons h.noClosing u
  · rw [hnil, List.append_nil]
    exact Root.splitAfterLast_of_notMem hno

/-- The mark after the root is the division's. -/
theorem headMark? (h : Embedded lead container text mark trail) :
    JsonTemplate.headMark? (mark ++ trail)
      = (JsonTemplate.headMark? mark).map fun (n, _) => (n, trail) := by
  rcases h.marked with ⟨rfl, hnone⟩ | ⟨n, hmark⟩
  · exact hnone
  · rw [headMark?_append hmark, hmark]
    rfl

/-- What is done with a text depends on its root and the count of the mark after it. -/
theorem ofText? (h : Embedded lead container text mark trail) :
    Plan.ofText? (lead ++ (text ++ (mark ++ trail)))
      = some (planOf container text ((JsonTemplate.headMark? mark).map Prod.fst)) := by
  rw [Plan.ofText?, h.find?, Option.map_some, h.split]
  simp only [h.headMark?]
  cases container <;> cases JsonTemplate.headMark? mark <;> rfl

/-- The template as it is written is the root and the mark. -/
theorem writtenTemplate? (h : Embedded lead container text mark trail) :
    JsonTemplate.writtenTemplate? (lead ++ (text ++ (mark ++ trail))) = some (text ++ mark) := by
  rw [JsonTemplate.writtenTemplate?, h.find?, Option.map_some, h.split]
  simp only [h.headMark?]
  rcases h.marked with ⟨rfl, -⟩ | ⟨n, hmark⟩
  · simp [JsonTemplate.headMark?, trimStart, RepeatBlock.splitMark?, afterStart?,
      RepeatBlock.markStart_eq]
  · simp [hmark]

/-- The template is divided as the text is. -/
theorem alone (h : Embedded lead container text mark trail) :
    Embedded [] container text mark [] where
  noOpening _ hc := absurd hc List.not_mem_nil
  opening := h.opening
  closing := by
    rcases h.closing with hclosed | ⟨hno, hnil⟩
    · exact .inl hclosed
    · exact .inr ⟨hno, by rw [(List.append_eq_nil_iff.1 hnil).1]; rfl⟩
  noClosing hm := h.noClosing (List.mem_append_left trail (by rwa [List.append_nil] at hm))
  marked := by
    rcases h.marked with ⟨hnil, -⟩ | hmarked
    · exact .inl ⟨hnil, rfl⟩
    · exact .inr hmarked

end Embedded

theorem exists_embedded_of_writtenTemplate? {t w : List Char} (h : writtenTemplate? t = some w) :
    ∃ lead container text mark trail, t = lead ++ (text ++ (mark ++ trail)) ∧ w = text ++ mark
      ∧ Embedded lead container text mark trail := by
  obtain ⟨r, hr, -⟩ := Option.map_eq_some_iff.1 h
  obtain ⟨text, mark, trail, rfl, hembedded⟩ := exists_embedded hr
  rw [hembedded.writtenTemplate?] at h
  exact ⟨_, _, text, mark, trail, rfl, (Option.some.inj h).symm, hembedded⟩

/-- The same is to be done with the template alone as with the text. -/
theorem Plan.ofText?_of_writtenTemplate? {t w : List Char} (h : writtenTemplate? t = some w) :
    ofText? w = ofText? t := by
  obtain ⟨lead, container, text, mark, trail, rfl, rfl, hembedded⟩ :=
    exists_embedded_of_writtenTemplate? h
  have halone := hembedded.alone.ofText?
  rw [List.nil_append, List.append_nil] at halone
  rw [halone, hembedded.ofText?]

theorem writtenTemplate?_of_writtenTemplate? {t w : List Char} (h : writtenTemplate? t = some w) :
    writtenTemplate? w = some w := by
  obtain ⟨lead, container, text, mark, trail, rfl, rfl, hembedded⟩ :=
    exists_embedded_of_writtenTemplate? h
  have halone := hembedded.alone.writtenTemplate?
  rwa [List.nil_append, List.append_nil] at halone

theorem isSome_writtenTemplate? (t : List Char) :
    (writtenTemplate? t).isSome = (Plan.ofText? t).isSome := by
  rw [writtenTemplate?, Plan.ofText?, Option.isSome_map, Option.isSome_map]

namespace Template

theorem expand_of_writtenTemplate? {t w : List Char} (h : writtenTemplate? t = some w) {σ : Type}
    (source : ValueSource σ) : expand source w = expand source t := by
  rw [expand, expand, Plan.ofText?_of_writtenTemplate? h]

/-- The template as it is written is there exactly if there is something to be done with the text.
It stands in the text, after no delimiter that opens a root. The same is to be done with it as with
the text, and it is its own written template, so that it is expanded as the text is, with any
source. Two texts with the same written template are expanded alike, whatever else is in them. -/
theorem expand_writtenTemplate (t : List Char) :
    (writtenTemplate? t).isSome = (Plan.ofText? t).isSome ∧
    (∀ w, writtenTemplate? t = some w →
      (∃ lead trail, t = lead ++ (w ++ trail) ∧ ∀ c ∈ lead, Container.ofOpening? c = none) ∧
      Plan.ofText? w = Plan.ofText? t ∧ writtenTemplate? w = some w ∧
      ∀ (σ : Type) (source : ValueSource σ), expand source w = expand source t) ∧
    ∀ u, writtenTemplate? u = writtenTemplate? t →
      ∀ (σ : Type) (source : ValueSource σ), expand source u = expand source t := by
  refine ⟨isSome_writtenTemplate? t, fun w hw => ⟨?_, Plan.ofText?_of_writtenTemplate? hw,
    writtenTemplate?_of_writtenTemplate? hw, fun σ source => expand_of_writtenTemplate? hw source⟩,
    fun u hu σ source => ?_⟩
  · obtain ⟨lead, container, text, mark, trail, rfl, rfl, hembedded⟩ :=
      exists_embedded_of_writtenTemplate? hw
    exact ⟨lead, trail, by simp, hembedded.noOpening⟩
  · cases hw : writtenTemplate? t with
    | some w => rw [← expand_of_writtenTemplate? hw, expand_of_writtenTemplate? (hu.trans hw)]
    | none =>
      have hnone : ∀ {t}, writtenTemplate? t = none → Plan.ofText? t = none := by
        intro t ht
        have := isSome_writtenTemplate? t
        rwa [ht, Option.isSome_none, eq_comm, Option.isSome_eq_false_iff, Option.isNone_iff_eq_none]
          at this
      rw [expand, expand, hnone hw, hnone (hu.trans hw)]

/-- A closing bracket before the root, and a wide blank before the mark. -/
def sentence : List Char :=
  "of 3] take [@w]\u2003@repeat(2), or not".toList

theorem expand_writtenTemplate_sentence :
    writtenTemplate? sentence = some "[@w]\u2003@repeat(2)".toList ∧
      Plan.ofText? "[@w]\u2003@repeat(2)".toList = some (.repeated "[@w]".toList 2) ∧
      expand (ValueSource.constant .null) "[@w]\u2003@repeat(2)".toList
        = expand (ValueSource.constant .null) sentence := by
  have hwritten : writtenTemplate? sentence = some "[@w]\u2003@repeat(2)".toList := by decide
  obtain ⟨-, -, -, hexpand⟩ := (expand_writtenTemplate sentence).2.1 _ hwritten
  exact ⟨hwritten, by decide, hexpand Unit _⟩

end Template

end JsonTemplate
