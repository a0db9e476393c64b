import JsonTemplate.Proofs.Quotation
import JsonTemplate.Proofs.Surroundings

/-!
# Roots

The root of an array or object with blanks around it is the array or object
(`Plan.ofText?_container`). A JSON text with such a value is of that form (`exists_root_of_read`):
which container its outermost value is shows in the first character that is no blank, and in every
state of the reader after it.
-/

namespace JsonTemplate

open Text Json Json.ReaderState

/-! ## Finding the root -/

theorem Container.ofOpening?_of_isJsonBlank {c : Char} (h : isJsonBlank c = true) :
    ofOpening? c = none := by
  rcases isJsonBlank_iff.1 h with rfl | rfl | rfl | rfl <;> rfl

theorem Container.ofOpening?_digit {c : Char} (h : c.isDigit) : ofOpening? c = none := by
  unfold ofOpening?
  rw [if_neg, if_neg] <;> rintro rfl <;> cases h

theorem headMark?_blanks (b : Blanks) : headMark? b = none := by
  have hblank : trimStart (b : List Char) = [] := by
    have h : ((b : List Char) ++ []).dropWhile isBlank = [].dropWhile isBlank :=
      List.dropWhile_append_of_pos fun c hc =>
        isBlank_of_isJsonBlank (b.2 c hc)
    rwa [List.append_nil, List.dropWhile_nil] at h
  rw [headMark?, hblank]
  rfl

theorem Container.isJsonBlank_closing (container : Container) :
    isJsonBlank container.closing = false := by
  cases container <;> rfl

/-- The root of a container with blanks around it is the container. -/
theorem Plan.ofText?_container {c : Char} {container : Container}
    (hc : Container.ofOpening? c = some container) (inner : List Char) (lead trail : Blanks) :
    Plan.ofText? (lead ++ (c :: (inner ++ [container.closing]) ++ trail))
      = some (.once container (c :: (inner ++ [container.closing]))) := by
  have htrail : container.closing ∉ (trail : List Char) := by
    intro hm
    have := trail.2 _ hm
    rw [container.isJsonBlank_closing] at this
    cases this
  have hlead := fun d hd => Container.ofOpening?_of_isJsonBlank (lead.2 d hd)
  have hsplit := Root.splitAfterLast_append_cons htrail (c :: inner)
  have htext : c :: (inner ++ [container.closing]) ++ (trail : List Char)
      = c :: (inner ++ container.closing :: (trail : List Char)) := by
    simp
  rw [htext, ofText?, Root.find?_append hlead hc, Option.map_some, Root.split]
  simp only [← List.cons_append, hsplit, headMark?_blanks]

/-! ## The outermost value -/

/-- The container that a value is, if it is no scalar. -/
def Json.container? : Json → Option Container
  | .array _ => some .array
  | .object _ => some .object
  | _ => none

namespace Json

def Frame.container : Frame → Container
  | .array _ => .array
  | .object .. => .object

/-- What the value is that a phase is in: a container, a scalar, or not begun. -/
def Phase.begun? : Phase → Option (Option Container)
  | .value => none
  | .firstItem | .nextItem _ | .afterItem _ => some (some .array)
  | .firstKey | .nextKey _ | .colon .. | .afterField _ | .string (.key _) .. => some (some .object)
  | .string .value .. | .number _ => some none
  | .word _ v | .finished v => some v.container?

namespace ReaderState

/-- What the outermost value is, given what the innermost one is. -/
def outermost (innermost : Option (Option Container)) : List Frame → Option (Option Container)
  | [] => innermost
  | frame :: frames => outermost (some (some frame.container)) frames

/-- What the outermost value is. -/
def begun? (s : ReaderState) : Option (Option Container) :=
  match s.phase with
  | .finished v => some v.container?
  | phase => outermost phase.begun? s.frames

theorem isSome_outermost (k : Option Container) (frames : List Frame) :
    (outermost (some k) frames).isSome = true := by
  induction frames generalizing k with
  | nil => rfl
  | cons frame frames ih => exact ih _

theorem eq_initial_of_begun? {s : ReaderState} (h : s.begun? = none) : s = initial := by
  have hframes : ∀ k frames, outermost (some k) frames ≠ none := by
    intro k frames hnone
    have := isSome_outermost k frames
    rw [hnone] at this
    cases this
  obtain ⟨frames, phase⟩ := s
  cases phase with
  | value =>
    cases frames with
    | nil => rfl
    | cons frame frames => exact absurd h (hframes _ _)
  | string role read part => cases role <;> exact absurd h (hframes _ _)
  | finished v => cases h
  | _ => exact absurd h (hframes _ _)

theorem begun?_deliver (v : Json) (frames : List Frame) :
    (deliver v frames).begun? = outermost (some v.container?) frames := by
  rcases frames with _ | ⟨_ | _, frames⟩ <;> rfl

theorem begun?_startValue {frames : List Frame} {c : Char} {s : ReaderState}
    (hs : startValue frames c = .ok s) :
    s.begun? = outermost (some (Container.ofOpening? c)) frames := by
  cases starts_of_startValue hs with
  | string | array | object | null | true | false => rfl
  | number hc =>
    have hopening : Container.ofOpening? c = none := by
      rcases hc with rfl | hc
      · rfl
      · exact Container.ofOpening?_digit hc
    rw [hopening]
    rfl

theorem begun?_endString (frames : List Frame) (role : StringRole) (read : List Char) :
    (endString frames role read).begun? = begun? ⟨frames, .string role read .plain⟩ := by
  cases role with
  | value => exact begun?_deliver _ _
  | key fields => rfl

/-- What the outermost value is does not change once it has begun. -/
theorem begun?_step {s s' : ReaderState} {c : Char} (hs : s.step c = .ok s') (hne : s ≠ initial) :
    s'.begun? = s.begun? := by
  have hsteps := steps_of_step hs
  clear hs
  induction hsteps with
  | blank | colon | itemComma | fieldComma | firstKey | nextKey | letter | digit => rfl
  | @value frames c s hs =>
    -- A first character changes nothing if there is a frame: the frame says what the outermost is.
    rw [begun?_startValue hs]
    cases frames with
    | nil => exact absurd rfl hne
    | cons frame frames => rfl
  | firstItem hs | nextItem hs => exact begun?_startValue hs
  | noItems | items | noFields | fields | word => exact begun?_deliver _ _
  | @unquote frames role read part =>
    rw [begun?_endString]
    cases role <;> rfl
  | @quoted frames role => cases role <;> rfl
  | @number frames draft n c s _ _ _ ih =>
    rw [ih ?_, begun?_deliver]
    · rfl
    · rcases frames with _ | ⟨_ | _, frames⟩ <;> nofun

/-- Only blanks lead back to the start. -/
theorem eq_initial_of_step {s : ReaderState} {c : Char} (hs : s.step c = .ok initial) :
    s = initial ∧ isJsonBlank c = true := by
  have hinitial : s = initial := by
    refine Classical.byContradiction fun hne => ?_
    exact hne (eq_initial_of_begun? (begun?_step hs hne).symm)
  refine ⟨hinitial, ?_⟩
  subst hinitial
  cases hblank : isJsonBlank c with
  | true => rfl
  | false =>
    rw [show initial.step c = startValue [] c by simp [initial, step, hblank]] at hs
    cases begun?_startValue hs

theorem takeString?_ne_initial (s : ReaderState) (x : String) :
    s.takeString? x ≠ some initial := by
  intro h
  obtain ⟨⟨frames, role⟩, -, hend⟩ := Option.map_eq_some_iff.1 h
  cases role with
  | value => rcases frames with _ | ⟨_ | _, frames⟩ <;> cases hend
  | key fields => cases hend

/-- A string is a whole text only at the start. -/
theorem eq_initial_of_takeString? {s s' : ReaderState} {x : String} {v : Json}
    (h : s.takeString? x = some s') (hclose : s'.close = .ok v) : s = initial := by
  obtain ⟨frames, phase⟩ := s
  cases phase
  all_goals cases h
  case value =>
    rcases frames with _ | ⟨_ | _, frames⟩
    · rfl
    · cases hclose
    · cases hclose
  all_goals cases hclose

theorem begun?_close {s : ReaderState} {v : Json} (h : s.close = .ok v) :
    s.begun? = some v.container? := by
  rcases close_cases h with ⟨frames, rfl⟩ | ⟨draft, n, rfl, -, rfl⟩ <;> rfl

end ReaderState

theorem begun?_of_readFrom? {v : Json} : ∀ {t : List Char} {s : ReaderState},
    readFrom? s t = some v → s ≠ initial → s.begun? = some v.container?
  | [], s, h, _ => begun?_close (readFrom?_nil_iff.1 h)
  | c :: t, s, h, hne => by
    obtain ⟨s', hs, h⟩ := readFrom?_cons_iff.1 h
    rw [← begun?_step hs hne]
    refine begun?_of_readFrom? h ?_
    rintro rfl
    exact hne (eq_initial_of_step hs).1

/-- The text of a container begins with its opening bracket, blanks aside. -/
theorem exists_opening {v : Json} {container : Container} (hv : v.container? = some container) :
    ∀ {t : List Char}, readFrom? .initial t = some v →
      ∃ (lead : Blanks) (c : Char) (rest : List Char), t = lead ++ c :: rest
        ∧ Container.ofOpening? c = some container ∧ readFrom? .initial (c :: rest) = some v
  | [], h => by cases h
  | c :: t, h => by
    cases hblank : isJsonBlank c with
    | true =>
      have hstep : initial.step c = .ok initial := by simp [initial, step, hblank]
      rw [readFrom?_cons, hstep] at h
      obtain ⟨lead, d, rest, rfl, hd, hread⟩ := exists_opening hv h
      refine ⟨⟨c :: lead, ?_⟩, d, rest, rfl, hd, hread⟩
      exact List.forall_mem_cons.2 ⟨hblank, lead.2⟩
    | false =>
      refine ⟨.none, c, t, rfl, ?_, h⟩
      obtain ⟨s, hs, h⟩ := readFrom?_cons_iff.1 h
      rw [show initial.step c = startValue [] c by simp [initial, step, hblank]] at hs
      have hbegun := begun?_startValue hs
      have hne : s ≠ initial := by
        rintro rfl
        cases hbegun
      rw [begun?_of_readFrom? h hne, hv] at hbegun
      exact (Option.some.inj hbegun).symm

/-! ## The end of a container -/

namespace ReaderState

theorem close_deliver {v w : Json} {frames : List Frame}
    (h : (deliver w frames).close = .ok v) : v = w := by
  rcases frames with _ | ⟨_ | _, frames⟩ <;> cases h
  rfl

variable {v : Json} {container : Container}

theorem ne_close_deliver {w : Json} (hv : v.container? = some container)
    (hw : w.container? = none) (frames : List Frame) : (deliver w frames).close ≠ .ok v := by
  intro hclose
  rw [close_deliver hclose, hw] at hv
  cases hv

theorem ne_close_number (hv : v.container? = some container) (frames : List Frame)
    (draft : NumberDraft) : close ⟨frames, .number draft⟩ ≠ .ok v := by
  intro hclose
  rcases close_cases hclose with ⟨_, heq⟩ | ⟨_, n, -, -, rfl⟩
  · cases heq
  · cases hv

theorem ne_close_startValue (hv : v.container? = some container) {frames : List Frame} {c : Char}
    {s : ReaderState} (hs : startValue frames c = .ok s) : s.close ≠ .ok v := by
  cases starts_of_startValue hs with
  | number => exact ne_close_number hv _ _
  | string | array | object | null | true | false => exact fun h => by cases h

theorem eq_closing_of_close (hv : v.container? = some container) {w : Json} {k : Container}
    (hw : w.container? = some k) {frames : List Frame} (hclose : (deliver w frames).close = .ok v) :
    k.closing = container.closing := by
  rw [close_deliver hclose, hw] at hv
  rw [Option.some.inj hv]

/-- A container is complete after its closing bracket, and stays so with blanks only. -/
theorem close_step (hv : v.container? = some container) {s s' : ReaderState} {c : Char}
    (hspells : s.Spells) (hs : s.step c = .ok s') (hclose : s'.close = .ok v) :
    isJsonBlank c = true ∧ s.close = .ok v ∨ c = container.closing := by
  have hsteps := steps_of_step hs
  clear hs
  induction hsteps with
  | blank hc => exact .inl ⟨hc, hclose⟩
  | value hs | firstItem hs | nextItem hs => exact absurd hclose (ne_close_startValue hv hs)
  | firstKey | nextKey | colon | itemComma | fieldComma | letter | quoted => cases hclose
  | noItems | items => exact .inr (eq_closing_of_close hv (k := .array) rfl hclose)
  | noFields | fields => exact .inr (eq_closing_of_close hv (k := .object) rfl hclose)
  | word =>
    refine absurd hclose (ne_close_deliver hv ?_ _)
    rcases hspells.2 with rfl | ⟨b, rfl⟩ <;> rfl
  | @unquote frames role =>
    cases role with
    | value => exact absurd hclose (ne_close_deliver hv rfl frames)
    | key fields => cases hclose
  | digit => exact absurd hclose (ne_close_number hv _ _)
  | number _ _ _ ih =>
    refine (ih (spells_deliver _ _) hclose).imp_left fun h => ?_
    exact absurd h.2 (ne_close_deliver hv rfl _)

end ReaderState

/-- The text of a container ends with its closing bracket, blanks aside, and is complete with it. -/
theorem exists_closing {v : Json} {container : Container} (hv : v.container? = some container)
    {t : List Char} {s : ReaderState} (hspells : s.Spells) (h : readFrom? s t = some v) :
    s.close = .ok v ∧ (∀ c ∈ t, isJsonBlank c = true)
      ∨ ∃ (inner : List Char) (trail : Blanks), t = inner ++ container.closing :: trail
        ∧ readFrom? s (inner ++ [container.closing]) = some v := by
  induction t generalizing s with
  | nil => exact .inl ⟨readFrom?_nil_iff.1 h, fun c hc => by cases hc⟩
  | cons c t ih =>
    obtain ⟨s', hs, h⟩ := readFrom?_cons_iff.1 h
    rcases ih (spells_step hspells hs) h with ⟨hclose, hblank⟩ | ⟨inner, trail, rfl, hread⟩
    · rcases close_step hv hspells hs hclose with ⟨hc, hclose⟩ | rfl
      · exact .inl ⟨hclose, List.forall_mem_cons.2 ⟨hc, hblank⟩⟩
      · refine .inr ⟨[], ⟨t, hblank⟩, rfl, ?_⟩
        exact readFrom?_cons_iff.2 ⟨s', hs, readFrom?_nil_iff.2 hclose⟩
    · exact .inr ⟨c :: inner, trail, rfl, readFrom?_cons_iff.2 ⟨s', hs, hread⟩⟩

end Json

/-- The root of a JSON text is its value's text. -/
theorem exists_root_of_read {t : List Char} {v : Json} {container : Container}
    (h : Json.read t = .ok v) (hv : v.container? = some container) :
    ∃ c inner, Container.ofOpening? c = some container
      ∧ Plan.ofText? t = some (.once container (c :: inner)) ∧ Json.read (c :: inner) = .ok v := by
  obtain ⟨lead, c, rest, rfl, hc, hread⟩ := Json.exists_opening hv (read_eq_ok_iff.1 h)
  rcases Json.exists_closing hv (s := .initial) trivial hread with
    ⟨hclose, -⟩ | ⟨u, trail, hrest, hroot⟩
  · cases hclose
  · cases u with
    | nil =>
      obtain ⟨rfl, -⟩ := List.cons.inj hrest
      cases container <;> cases hc
    | cons d inner =>
      obtain ⟨rfl, rfl⟩ := List.cons.inj hrest
      refine ⟨c, inner ++ [container.closing], hc, ?_, read_eq_ok_iff.2 hroot⟩
      rw [← Plan.ofText?_container hc inner lead trail]
      simp

end JsonTemplate
