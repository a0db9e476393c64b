import JsonTemplate.Proofs.Pieces
import JsonTemplate.Proofs.Quotation

/-!
# Shapes of readings

What a reader refuses, and whether its value is an array with an item, do not depend on the strings
of the text but for where they end: the reader is followed by its shape, in which the contents are
erased (`ReaderState.shape_step`). Placeholders end where they are meant to, or stop the reader
alike, so that texts that differ in their placeholders only are read with the same outcome
(`Kindred.outcome_eq`). So whether a template is JSON does not depend on the table
(`outcome_quoteChains`).
-/

namespace JsonTemplate

open Text Json

namespace Json

/-- So many values, all the same. -/
def blanks (items : List Json) : List Json :=
  List.replicate items.length .null

/-- An array with its number of items, or else null. -/
def shape : Json → Json
  | .array items => .array (blanks items)
  | _ => .null

namespace ReaderState

def shapeOfFrame : Frame → Frame
  | .array items => .array (blanks items)
  | .object _ _ => .object [] ""

def shapeOfRole : StringRole → StringRole
  | .value => .value
  | .key _ => .key []

def shapeOfPhase : Phase → Phase
  | .value => .value
  | .firstItem => .firstItem
  | .nextItem items => .nextItem (blanks items)
  | .firstKey => .firstKey
  | .nextKey _ => .nextKey []
  | .colon _ _ => .colon [] ""
  | .afterItem items => .afterItem (blanks items)
  | .afterField _ => .afterField []
  | .finished v => .finished v.shape
  | .word rest v => .word rest v.shape
  | .string role _ part => .string (shapeOfRole role) [] part
  | .number draft => .number draft

/-- The state without the strings and the values that have been read. -/
def shape (s : ReaderState) : ReaderState :=
  ⟨s.frames.map shapeOfFrame, shapeOfPhase s.phase⟩

theorem shape_json (v : Json) : v.shape.shape = v.shape := by
  cases v <;> simp [Json.shape, blanks]

theorem shapeOfFrame_idem (f : Frame) : shapeOfFrame (shapeOfFrame f) = shapeOfFrame f := by
  cases f <;> simp [shapeOfFrame, blanks]

theorem map_shapeOfFrame (frames : List Frame) :
    (frames.map shapeOfFrame).map shapeOfFrame = frames.map shapeOfFrame := by
  simp [shapeOfFrame_idem]

theorem shape_shape (s : ReaderState) : s.shape.shape = s.shape := by
  obtain ⟨frames, phase⟩ := s
  have hphase : shapeOfPhase (shapeOfPhase phase) = shapeOfPhase phase := by
    cases phase with
    | string role read part => cases role <;> rfl
    | finished v | word rest v => simp [shapeOfPhase, shape_json]
    | _ => simp [shapeOfPhase, blanks]
  simp only [shape, map_shapeOfFrame, hphase]

/-- A value goes where its shape goes. -/
theorem shape_deliver (v : Json) (frames : List Frame) :
    (deliver v.shape (frames.map shapeOfFrame)).shape = (deliver v frames).shape := by
  rcases frames with _ | ⟨items | ⟨fields, key⟩, frames⟩
  · simp [deliver, shape, shapeOfPhase, shape_json]
  · simp only [List.map_cons, shapeOfFrame, deliver, shape, map_shapeOfFrame]
    simp [shapeOfPhase, blanks]
  · simp only [List.map_cons, shapeOfFrame, deliver, shape, map_shapeOfFrame]
    rfl

theorem shape_deliver_congr {v w : Json} (h : v.shape = w.shape) (frames : List Frame) :
    (deliver v (frames.map shapeOfFrame)).shape = (deliver w frames).shape := by
  rw [← shape_deliver w frames, ← h, ← shape_deliver v, map_shapeOfFrame]

theorem shape_endString (frames : List Frame) (role : StringRole) (read read' : List Char) :
    (endString (frames.map shapeOfFrame) (shapeOfRole role) read').shape
      = (endString frames role read).shape := by
  cases role with
  | value =>
    exact shape_deliver_congr (v := .string (String.ofList read'.reverse))
      (w := .string (String.ofList read.reverse)) rfl frames
  | key fields =>
    simp only [endString, shapeOfRole, shape, map_shapeOfFrame]
    rfl

theorem shape_startValue (frames : List Frame) (c : Char) :
    (startValue (frames.map shapeOfFrame) c).map shape = (startValue frames c).map shape := by
  have hshape : ∀ phase, (shape ⟨frames.map shapeOfFrame, phase⟩) = shape ⟨frames, phase⟩ :=
    fun phase => by simp only [shape, map_shapeOfFrame]
  unfold startValue openContainer
  rw [List.length_map]
  repeat' split
  all_goals first
    | rfl
    | exact congrArg Except.ok (hshape _)

theorem shape_afterValue (s : ReaderState) (c : Char) :
    (s.shape.afterValue c).map shape = (s.afterValue c).map shape := by
  obtain ⟨frames, phase⟩ := s
  unfold afterValue
  split
  · exact congrArg Except.ok (shape_shape _)
  · cases phase with
    | afterItem items =>
      simp only [shape, shapeOfPhase]
      split
      · exact congrArg Except.ok (shape_shape ⟨frames, .nextItem items⟩)
      · split
        · refine congrArg Except.ok (shape_deliver_congr ?_ frames)
          simp [Json.shape, blanks]
        · rfl
    | afterField fields =>
      simp only [shape, shapeOfPhase]
      split
      · exact congrArg Except.ok (shape_shape ⟨frames, .nextKey fields⟩)
      · split
        · exact congrArg Except.ok
            (shape_deliver_congr (v := .object []) (w := .object fields) rfl frames)
        · rfl
    | _ => rfl

theorem map_endHex (high : Option Nat) (value : Nat) (read read' : List Char) :
    (endHex high value read).map Prod.snd = (endHex high value read').map Prod.snd := by
  unfold endHex
  repeat' split
  all_goals rfl

/-- What has been read of a string does not matter to the rest. -/
theorem map_stringStep (read read' : List Char) (part : StringPart) (c : Char) :
    (stringStep read part c).map Prod.snd = (stringStep read' part c).map Prod.snd := by
  unfold stringStep
  cases part with
  | hex high count value =>
    simp only
    split
    · rfl
    · split
      · exact map_endHex _ _ _ _
      · rfl
  | _ =>
    simp only
    repeat' split
    all_goals rfl

/-- Within a string only the place in it shows. -/
theorem shape_step_string (frames : List Frame) (role : StringRole) (read : List Char)
    {part : StringPart} {c : Char} (hend : ¬ (c = '"' ∧ isPlain part = true)) :
    (step ⟨frames, .string role read part⟩ c).map shape
      = ((stringStep read part c).map Prod.snd).map
          fun part' => shape ⟨frames, .string role [] part'⟩ := by
  simp only [step, if_neg hend]
  cases stringStep read part c <;> rfl

/-- A character does the same to the shape as to the state. -/
theorem shape_step (s : ReaderState) (c : Char) :
    (s.shape.step c).map shape = (s.step c).map shape := by
  obtain ⟨frames, phase⟩ := s
  cases phase with
  | value =>
    simp only [shape, shapeOfPhase, step]
    split
    · exact congrArg Except.ok (shape_shape ⟨frames, .value⟩)
    · exact shape_startValue frames c
  | firstItem =>
    simp only [shape, shapeOfPhase, step]
    split
    · exact congrArg Except.ok (shape_shape ⟨frames, .firstItem⟩)
    · split
      · exact congrArg Except.ok (shape_deliver_congr rfl frames)
      · exact shape_startValue (.array [] :: frames) c
  | nextItem items =>
    simp only [shape, shapeOfPhase, step]
    split
    · exact congrArg Except.ok (shape_shape ⟨frames, .nextItem items⟩)
    · split
      · rfl
      · exact shape_startValue (.array items :: frames) c
  | firstKey =>
    simp only [shape, shapeOfPhase, step]
    split
    · exact congrArg Except.ok (shape_shape ⟨frames, .firstKey⟩)
    · split
      · exact congrArg Except.ok (shape_deliver_congr rfl frames)
      · split
        · exact congrArg Except.ok (shape_shape ⟨frames, .string (.key []) [] .plain⟩)
        · rfl
  | nextKey fields =>
    simp only [shape, shapeOfPhase, step]
    split
    · exact congrArg Except.ok (shape_shape ⟨frames, .nextKey fields⟩)
    · split
      · rfl
      · split
        · exact congrArg Except.ok (shape_shape ⟨frames, .string (.key fields) [] .plain⟩)
        · rfl
  | colon fields key =>
    simp only [shape, shapeOfPhase, step]
    split
    · exact congrArg Except.ok (shape_shape ⟨frames, .colon fields key⟩)
    · split
      · exact congrArg Except.ok (shape_shape ⟨.object fields key :: frames, .value⟩)
      · rfl
  | afterItem items => exact shape_afterValue ⟨frames, .afterItem items⟩ c
  | afterField fields => exact shape_afterValue ⟨frames, .afterField fields⟩ c
  | finished v => exact shape_afterValue ⟨frames, .finished v⟩ c
  | word rest v =>
    cases rest with
    | nil => exact congrArg Except.ok (shape_deliver v frames)
    | cons d rest =>
      simp only [shape, shapeOfPhase, step]
      split
      · rfl
      · split
        · exact congrArg Except.ok (shape_deliver v frames)
        · exact congrArg Except.ok (shape_shape ⟨frames, .word rest v⟩)
  | string role read part =>
    by_cases hend : c = '"' ∧ isPlain part = true
    · simp only [shape, shapeOfPhase, step, if_pos hend]
      exact congrArg Except.ok (shape_endString frames role read [])
    · refine (shape_step_string (frames.map shapeOfFrame) (shapeOfRole role) [] hend).trans ?_
      rw [shape_step_string frames role read hend, map_stringStep [] read]
      exact congrArg (Except.map · _)
        (funext fun part' => shape_shape ⟨frames, .string role [] part'⟩)
  | number draft =>
    simp only [shape, shapeOfPhase, step]
    split
    · exact congrArg Except.ok (shape_shape ⟨frames, .number _⟩)
    · rfl
    · split
      · rename_i n hn
        have h := shape_afterValue (deliver (.number n) (frames.map shapeOfFrame)) c
        rw [shape_deliver_congr (w := .number n) rfl] at h
        rw [← h]
        exact shape_afterValue _ c
      · rfl

theorem shape_close (s : ReaderState) : s.shape.close.map Json.shape = s.close.map Json.shape := by
  obtain ⟨frames, phase⟩ := s
  cases phase with
  | finished v => exact congrArg Except.ok (shape_json v)
  | number draft =>
    simp only [shape, shapeOfPhase, close]
    split
    · rfl
    · rcases frames with _ | ⟨_ | _, frames⟩ <;> rfl
  | _ => rfl

/-! ## Readers that stop alike -/

/-- The reader is within a string or between strings, and a word that it is in is spelled. -/
def IsReading (s : ReaderState) : Prop :=
  s.Spells ∧ (s.IsBetween ∨ ∃ role read part, s.phase = .string role read part)

theorem isReading_initial : initial.IsReading :=
  ⟨trivial, .inl trivial⟩

theorem isReading_endString (frames : List Frame) (role : StringRole) (read : List Char) :
    (endString frames role read).IsReading :=
  ⟨spells_endString frames role read, .inl (isBetween_endString frames role read)⟩

theorem IsReading.step {s s' : ReaderState} {c : Char} (h : s.IsReading) (hs : s.step c = .ok s') :
    s'.IsReading := by
  refine ⟨spells_step h.1 hs, ?_⟩
  rcases h.2 with hbetween | ⟨role, read, part, hphase⟩
  · by_cases hc : c = '"'
    · have hok : (s.step c).toOption = some s' := by rw [hs]; rfl
      rw [hc, step_quote hbetween] at hok
      obtain ⟨⟨frames, role⟩, -, rfl⟩ := Option.map_eq_some_iff.1 hok
      exact .inr ⟨role, [], .plain, rfl⟩
    · exact .inl (isBetween_step hbetween hc hs)
  · obtain ⟨frames, phase⟩ := s
    obtain rfl : phase = .string role read part := hphase
    cases steps_of_step hs with
    | blank => exact .inr ⟨role, read, part, rfl⟩
    | unquote => exact .inl (isBetween_endString frames role read)
    | quoted => exact .inr ⟨role, _, _, rfl⟩

/-- A quote ends a string, or is refused, or the reader is at a plain place of a string after it. -/
theorem IsReading.step_quote {s s' : ReaderState} (h : s.IsReading) (hs : s.step '"' = .ok s') :
    s'.IsBetween ∨ ∃ role read, s'.phase = .string role read .plain := by
  rcases h.2 with hbetween | ⟨role, read, part, hphase⟩
  · have hok : (s.step '"').toOption = some s' := by rw [hs]; rfl
    rw [ReaderState.step_quote hbetween] at hok
    obtain ⟨⟨frames, role⟩, -, rfl⟩ := Option.map_eq_some_iff.1 hok
    exact .inr ⟨role, [], rfl⟩
  · obtain ⟨frames, phase⟩ := s
    obtain rfl : phase = .string role read part := hphase
    have hquote : hexValue? '"' = none := by decide
    cases steps_of_step hs with
    | blank hc => cases hc
    | unquote => exact .inl (isBetween_endString frames role read)
    | quoted hend hstring =>
      cases stringSteps_of_stringStep hstring with
      | plain => exact absurd ⟨rfl, rfl⟩ hend
      | escaped => exact .inr ⟨role, _, rfl⟩
      | digit hc | char hc | high hc | low hc => exact absurd rfl (ne_of_hexValue? hquote hc)

end ReaderState

/-- What becomes of a reading, but for the contents of the value and the place of an error. -/
def outcomeFrom (s : ReaderState) (t : List Char) : Except SyntaxCause Json :=
  match run s t with
  | .error stop => .error stop.cause
  | .ok s => s.close.map shape

def outcome (r : Except SyntaxError Json) : Except SyntaxCause Json :=
  match r with
  | .error e => .error e.cause
  | .ok v => .ok v.shape

/-- Readings with one outcome are errors of one cause, or values. -/
theorem outcome_cases {r r' : Except SyntaxError Json} (h : outcome r = outcome r') :
    (∃ e e', r = .error e ∧ r' = .error e' ∧ e.cause = e'.cause)
      ∨ ∃ v v', r = .ok v ∧ r' = .ok v' ∧ v.shape = v'.shape := by
  rcases r with e | v <;> rcases r' with e' | v'
  · exact .inl ⟨e, e', rfl, rfl, Except.error.inj h⟩
  · cases h
  · cases h
  · exact .inr ⟨v, v', rfl, rfl, Except.ok.inj h⟩

theorem outcome_read (t : List Char) : outcome (Json.read t) = outcomeFrom .initial t := by
  unfold Json.read outcomeFrom
  cases run .initial t with
  | error stop => rfl
  | ok s =>
    simp only
    cases s.close <;> rfl

theorem outcomeFrom_cons (s : ReaderState) (c : Char) (t : List Char) :
    outcomeFrom s (c :: t) = match s.step c with
      | .ok s => outcomeFrom s t
      | .error r => .error (r.toStop (c :: t)).cause := by
  rw [outcomeFrom, run]
  cases s.step c <;> rfl

theorem outcomeFrom_append {s s' : ReaderState} {t : List Char} (h : run s t = .ok s')
    (u : List Char) : outcomeFrom s (t ++ u) = outcomeFrom s' u := by
  rw [outcomeFrom, run_append h, outcomeFrom]

/-- Texts of one length, or both too long for four digits to be cut off. -/
def Comparable (t t' : List Char) : Prop :=
  utf8Length t = utf8Length t' ∨ 4 ≤ utf8Length t ∧ 4 ≤ utf8Length t'

theorem Refusal.cause_eq {t t' : List Char} (h : Comparable t t') (r : Refusal) :
    (r.toStop t).cause = (r.toStop t').cause := by
  have hcause : ∀ (read : Nat) (u : List Char), ((Refusal.badHex read).toStop u).cause
      = if read + utf8Length u < 4 then .endInString else .invalidEscape := fun read u => by
    rw [toStop]
    split <;> rfl
  cases r with
  | cause c ahead => rfl
  | badHex read =>
    rw [hcause, hcause]
    rcases h with h | h
    · rw [h]
    · rw [if_neg (by omega), if_neg (by omega)]

/-- Readers of one shape refuse a character alike, or go on with one shape. -/
theorem ReaderState.step_cases {s s' : ReaderState} (h : s.shape = s'.shape) (c : Char) :
    (∃ r, s.step c = .error r ∧ s'.step c = .error r)
      ∨ ∃ s₁ s₁', s.step c = .ok s₁ ∧ s'.step c = .ok s₁' ∧ s₁.shape = s₁'.shape := by
  have hstep := shape_step s c
  rw [h, shape_step s' c] at hstep
  cases h₁ : s.step c with
  | error r =>
    cases h₂ : s'.step c with
    | error r' =>
      rw [h₁, h₂] at hstep
      cases hstep
      exact .inl ⟨r, rfl, rfl⟩
    | ok s₁' => rw [h₁, h₂] at hstep; cases hstep
  | ok s₁ =>
    cases h₂ : s'.step c with
    | error r' => rw [h₁, h₂] at hstep; cases hstep
    | ok s₁' =>
      rw [h₁, h₂] at hstep
      exact .inr ⟨s₁, s₁', rfl, rfl, (Except.ok.inj hstep).symm⟩

theorem outcomeFrom_of_refused {s s' : ReaderState} {c : Char} {r : Refusal} {t t' : List Char}
    (hs : s.step c = .error r) (hs' : s'.step c = .error r) (h : Comparable (c :: t) (c :: t')) :
    outcomeFrom s (c :: t) = outcomeFrom s' (c :: t') := by
  rw [outcomeFrom_cons, outcomeFrom_cons, hs, hs']
  exact congrArg Except.error (r.cause_eq h)

end Json

/-! ## Texts that differ in their placeholders -/

/-- A word as placeholders are. -/
def Placeholder.IsWord (w : List Char) : Prop :=
  (∃ u, w = '_' :: u) ∧ 4 ≤ w.length ∧ ∀ c ∈ w, Token.isNameChar c = true

/-- The texts differ in quoted placeholders only. -/
inductive Kindred : List Char → List Char → Prop
  | nil : Kindred [] []
  | char (c : Char) {t t' : List Char} (h : Kindred t t') : Kindred (c :: t) (c :: t')
  | word {w w' t t' : List Char} (hw : Placeholder.IsWord w) (hw' : Placeholder.IsWord w')
    (h : Kindred t t') : Kindred ('"' :: (w ++ '"' :: t)) ('"' :: (w' ++ '"' :: t'))

namespace Kindred

theorem append (u : List Char) {t t' : List Char} (h : Kindred t t') :
    Kindred (u ++ t) (u ++ t') := by
  induction u with
  | nil => exact h
  | cons c u ih => exact .char c ih

theorem length_le_utf8Length : ∀ t : List Char, t.length ≤ utf8Length t
  | [] => Nat.le_refl _
  | c :: t => by
    have := length_le_utf8Length t
    have := c.utf8Size_pos
    simp only [List.length_cons, utf8Length]
    omega

theorem long {w w' : List Char} (hw : Placeholder.IsWord w) (hw' : Placeholder.IsWord w')
    (t t' : List Char) :
    4 ≤ utf8Length (w ++ '"' :: t) ∧ 4 ≤ utf8Length (w' ++ '"' :: t') := by
  have h₁ := length_le_utf8Length w
  have h₂ := length_le_utf8Length w'
  have h₃ := hw.2.1
  have h₄ := hw'.2.1
  simp only [utf8Length_append]
  omega

theorem comparable {t t' : List Char} (h : Kindred t t') : Json.Comparable t t' := by
  induction h with
  | nil => exact .inl rfl
  | char c h ih =>
    rcases ih with ih | ih
    · exact .inl (by simp only [utf8Length, ih])
    · exact .inr (by simp only [utf8Length]; omega)
  | @word w w' t t' hw hw' h ih =>
    have hlong := long hw hw' t t'
    refine .inr ?_
    rw [utf8Length, utf8Length]
    omega

open Json.ReaderState

/-- A placeholder is read to its closing quote. -/
theorem outcomeFrom_word {w : List Char} (hw : Placeholder.IsWord w) (frames : List Frame)
    (role : StringRole) (read t : List Char) :
    outcomeFrom ⟨frames, .string role read .plain⟩ (w ++ '"' :: t)
      = outcomeFrom (endString frames role (w.reverse ++ read)) t := by
  have hrun := run_escaped frames role w read
  rw [flatMap_escapeChar_of_isNameChar hw.2.2] at hrun
  rw [outcomeFrom_append hrun, outcomeFrom_cons]
  rfl

/-- Readers of one shape come to the same end with kindred texts. -/
theorem outcomeFrom_eq {t t' : List Char} (h : Kindred t t') : ∀ {s s' : ReaderState},
    s.shape = s'.shape → s.IsReading → s'.IsReading → outcomeFrom s t = outcomeFrom s' t' := by
  induction h with
  | nil =>
    intro s s' hshape _ _
    have := shape_close s
    rw [hshape, shape_close s'] at this
    exact this.symm
  | char c h ih =>
    intro s s' hshape hs hs'
    rcases step_cases hshape c with ⟨r, h₁, h₂⟩ | ⟨s₁, s₁', h₁, h₂, hshape₁⟩
    · exact outcomeFrom_of_refused h₁ h₂ (h.char c).comparable
    · rw [outcomeFrom_cons, outcomeFrom_cons, h₁, h₂]
      exact ih hshape₁ (hs.step h₁) (hs'.step h₂)
  | @word w w' t t' hw hw' h ih =>
    intro s s' hshape hs hs'
    rcases step_cases hshape '"' with ⟨r, h₁, h₂⟩ | ⟨s₁, s₁', h₁, h₂, hshape₁⟩
    · exact outcomeFrom_of_refused h₁ h₂ (word hw hw' h).comparable
    rw [outcomeFrom_cons, outcomeFrom_cons, h₁, h₂]
    rcases hs.step_quote h₁ with hbetween | ⟨role, read, hphase⟩
    · -- The underscore after the quote is refused.
      have hnone := step_stray hbetween (hs.step h₁).1 (.inr (.inr (.inr rfl)))
      have hlong := long hw hw' t t'
      obtain ⟨u, rfl⟩ := hw.1
      obtain ⟨u', rfl⟩ := hw'.1
      rcases step_cases hshape₁ '_' with ⟨r, h₃, h₄⟩ | ⟨s₂, s₂', h₃, -, -⟩
      · exact outcomeFrom_of_refused h₃ h₄ (.inr hlong)
      · rw [h₃] at hnone
        cases hnone
    · obtain ⟨frames, phase⟩ := s₁
      obtain ⟨frames', phase'⟩ := s₁'
      obtain rfl : phase = .string role read .plain := hphase
      obtain ⟨hframes, hphase'⟩ := ReaderState.mk.inj hshape₁
      cases phase' with
      | string role' read' part' =>
        obtain ⟨hrole, -, rfl⟩ := Phase.string.inj hphase'
        refine (outcomeFrom_word hw _ _ _ _).trans (.trans ?_ (outcomeFrom_word hw' _ _ _ _).symm)
        refine ih ?_ (isReading_endString _ _ _) (isReading_endString _ _ _)
        rw [← shape_endString frames role _ [], ← shape_endString frames' role' _ []]
        dsimp only at hframes
        rw [hframes, hrole]
      | _ => cases hphase'

theorem outcome_eq {t t' : List Char} (h : Kindred t t') :
    outcome (Json.read t) = outcome (Json.read t') := by
  rw [outcome_read, outcome_read]
  exact h.outcomeFrom_eq rfl isReading_initial isReading_initial

end Kindred

/-! ## Texts with two tables -/

theorem Placeholder.isWord_ofExpression (n : Nat) : IsWord (ofExpression n).toList := by
  refine ⟨⟨_, toList_ofExpression n⟩, ?_, fun c => isNameChar_of_mem_ofExpression⟩
  rw [toList_ofExpression]
  simp

theorem Placeholder.isWord_ofBlock (n : Nat) : IsWord (ofBlock (blockName n)).toList := by
  refine ⟨⟨_, toList_ofBlock _⟩, ?_, fun c => isNameChar_of_mem_ofBlock⟩
  rw [toList_ofBlock]
  simp

theorem Kindred.toPlain (chain : Chain) (p q : Placeholders) {t t' : List Char}
    (h : Kindred t t') : Kindred ((chain.toPlain p).1 ++ t) ((chain.toPlain q).1 ++ t') := by
  unfold Chain.toPlain
  split
  · split
    · have := Kindred.word (Placeholder.isWord_ofExpression p.nextExpression)
        (Placeholder.isWord_ofExpression q.nextExpression) h
      simpa [Placeholders.recordExpression] using this
    · exact h.append _
  · exact h.append _

theorem Piece.kindred_quoteAll : ∀ (ps : List Piece) (p q : Placeholders),
    Kindred (quoteAll ps p).1 (quoteAll ps q).1
  | [], _, _ => .nil
  | .other c :: ps, p, q => (kindred_quoteAll ps p q).char c
  | .chained chain :: ps, p, q => (kindred_quoteAll ps _ _).toPlain chain p q

/-- Whether a text is JSON but for its chains, and what is wrong with it, is the same with every
table, and so is the number of its items. -/
theorem outcome_quoteChains (t : List Char) (p q : Placeholders) :
    outcome (Json.read (quoteChains t p).1) = outcome (Json.read (quoteChains t q).1) := by
  rw [quoteChains_eq, quoteChains_eq]
  exact (Piece.kindred_quoteAll _ p q).outcome_eq

end JsonTemplate
