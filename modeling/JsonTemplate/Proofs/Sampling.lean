import JsonTemplate.Generator.Number
import JsonTemplate.Proofs.Draws

/-!
# What is sampled

A sample is taken from a range or a list that has a member. Drawings are put together from samples
(`Sound`), and generators from drawings, refusals and the two checks that may stop all
(`SoundUnless`). Such a generator returns unless there is a reason to stop, and if it fails it says
what is wrong with an argument (`Refuses`).
-/

namespace JsonTemplate.Generator

open KeyStream Width

variable {α β : Type}

/-- A drawing that is put together from samples, each from a range or a list with a member. -/
inductive Sound : {α : Type} → StateM KeyStream α → Prop
  | pure {α : Type} (a : α) : Sound (pure a)
  | bind {α β : Type} {d : StateM KeyStream α} {f : α → StateM KeyStream β} (hd : Sound d)
    (hf : ∀ s, Sound (f (d.run s).1)) : Sound (d >>= f)
  | intBetween {low high : Int} (hle : low ≤ high)
    (hsize : (high - low + 1).toNat ≤ wordCount) : Sound (intBetween low high)
  | pick {α : Type} {members : List α} (h : members ≠ []) (default : α) :
    Sound (pick members default)
  | coin : Sound coin
  | bytes (count : Nat) : Sound (bytes count)

/-- A generator whose samples are taken from something, and that stops all for the given reason
only. A decimal is sampled from a range whose bounds are not crossed. -/
inductive SoundUnless (reason : Prop) : {α : Type} → Gen α → Prop
  | pure {α : Type} (a : α) : SoundUnless reason (pure a)
  | invalid {α : Type} (text : String) : SoundUnless reason (invalid text : Gen α)
  | bind {α β : Type} {g : Gen α} {f : α → Gen β} (hg : SoundUnless reason g)
    (hf : ∀ s a s', g.run.run s = .ok (.ok a, s') → SoundUnless reason (f a)) :
    SoundUnless reason (g >>= f)
  | draw {α : Type} {d : StateM KeyStream α} (h : Sound d) : SoundUnless reason (draw d)
  | checkSize {size count : Nat} (h : greatestSize < size * count → reason) :
    SoundUnless reason (checkSize size count)
  | floatBetween {min max : Binary64} (hle : min.le max = true)
    (h : min.same max = false → scaleOf? min max = none → reason) :
    SoundUnless reason (floatBetween min max)

/-! ## Outcomes -/

theorem run_bind (g : Gen α) (f : α → Gen β) (s : KeyStream) :
    (g >>= f).run.run s = match g.run.run s with
      | .ok (.ok a, s) => (f a).run.run s
      | .ok (.error e, s) => .ok (.error e, s)
      | .error h => .error h := by
  rw [ExceptT.run_bind, StateT.run_bind]
  rcases g.run.run s with h | ⟨e | a, s⟩ <;> rfl

theorem run_checkSize (size count : Nat) (s : KeyStream) :
    (checkSize size count).run.run s
      = if greatestSize < size * count then .error .endlessText else .ok (.ok (), s) := by
  unfold checkSize
  split <;> rfl

theorem run_floatBetween (min max : Binary64) (s : KeyStream) :
    (floatBetween min max).run.run s
      = if min.same max then .ok (.ok min, s)
        else match scaleOf? min max with
          | none => .error .endlessRange
          | some scale =>
            .ok (.ok ((fraction.run s).1 * scale + min), (fraction.run s).2) := by
  unfold floatBetween
  split
  · rfl
  · cases scaleOf? min max <;> rfl

/-- What a run may come to: a value, a refusal, or the end of all. -/
inductive Outcome (reason : Prop) : Except Halt (Except SourceError α × KeyStream) → Prop
  | value (a : α) (s : KeyStream) : Outcome reason (.ok (.ok a, s))
  | refused (text : String) (s : KeyStream) :
    Outcome reason (.ok (.error (.invalidArgument text), s))
  | stopped (halt : Halt) (h : reason) : Outcome reason (.error halt)

/-- If the generator fails, it says what is wrong with an argument. -/
def Refuses (g : Gen α) : Prop :=
  ∀ s e s', g.run.run s = .ok (.error e, s') → ∃ text, e = .invalidArgument text

namespace SoundUnless

variable {reason : Prop} {g : Gen α}

theorem outcome (h : SoundUnless reason g) (s : KeyStream) : Outcome reason (g.run.run s) := by
  induction h generalizing s with
  | pure a => exact .value a s
  | invalid text => exact .refused text s
  | draw h => exact .value _ _
  | @bind _ _ g f _ _ ihg ihf =>
    rw [run_bind]
    have hfirst := ihg s
    rcases hrun : g.run.run s with halt | ⟨e | a, s'⟩
    · rw [hrun] at hfirst
      cases hfirst with
      | stopped _ h => exact .stopped halt h
    · rw [hrun] at hfirst
      cases hfirst with
      | refused text => exact .refused text s'
    · exact ihf s a s' hrun s'
  | checkSize h =>
    rw [run_checkSize]
    split
    · exact .stopped _ (h ‹_›)
    · exact .value () s
  | @floatBetween min max _ h =>
    rw [run_floatBetween]
    split
    · exact .value min s
    · rename_i hsame
      rcases hscale : scaleOf? min max with _ | scale
      · exact .stopped _ (h (Bool.not_eq_true _ ▸ hsame) hscale)
      · exact .value _ _

/-- Without a reason to stop there is a result. -/
theorem returns (h : SoundUnless reason g) (hnot : ¬ reason) (s : KeyStream) :
    ∃ r s', g.run.run s = .ok (r, s') := by
  have houtcome := h.outcome s
  rcases hrun : g.run.run s with halt | ⟨r, s'⟩
  · rw [hrun] at houtcome
    cases houtcome with
    | stopped _ h => exact absurd h hnot
  · exact ⟨r, s', rfl⟩

theorem refuses (h : SoundUnless reason g) : Refuses g := by
  intro s e s' hrun
  have houtcome := h.outcome s
  rw [hrun] at houtcome
  cases houtcome with
  | refused text => exact ⟨text, rfl⟩

/-- What is made of a value. -/
theorem map (h : SoundUnless reason g) (f : α → β) : SoundUnless reason (do return f (← g)) :=
  h.bind fun _ a _ _ => .pure (f a)

theorem textual {d : StateM KeyStream String} (h : Sound d) (now : Calendar.Instant)
    (args : List Json) : SoundUnless reason (textual d now args) :=
  (draw h).map Json.string

end SoundUnless

namespace Refuses

theorem bind {g : Gen α} {f : α → Gen β} (hg : Refuses g) (hf : ∀ a, Refuses (f a)) :
    Refuses (g >>= f) := by
  intro s e s' hrun
  rw [run_bind] at hrun
  rcases hfirst : g.run.run s with halt | ⟨e' | a, s₁⟩
  · rw [hfirst] at hrun
    cases hrun
  · rw [hfirst] at hrun
    cases hrun
    exact hg s e s' hfirst
  · rw [hfirst] at hrun
    exact hf a s₁ e s' hrun

theorem pure (a : α) : Refuses (pure a : Gen α) :=
  (show SoundUnless False (Pure.pure a : Gen α) from .pure a).refuses

theorem invalid (text : String) : Refuses (invalid text : Gen α) :=
  (show SoundUnless False (Generator.invalid text : Gen α) from .invalid text).refuses

theorem draw (d : StateM KeyStream α) : Refuses (draw d) := by
  intro s e s' hrun
  cases hrun

theorem checkSize (size count : Nat) : Refuses (checkSize size count) :=
  (SoundUnless.checkSize (fun h => h)).refuses

theorem floatBetween (min max : Binary64) : Refuses (floatBetween min max) := by
  intro s e s' hrun
  rw [run_floatBetween] at hrun
  split at hrun
  · cases hrun
  · cases hscale : scaleOf? min max <;> rw [hscale] at hrun <;> cases hrun

end Refuses

/-! ## Drawings -/

namespace Sound

variable {d : StateM KeyStream α}

theorem map (h : Sound d) (f : α → β) : Sound (do return f (← d)) :=
  h.bind fun _ => .pure _

theorem drawList_go (h : Sound d) : ∀ (count : Nat) (drawn : List α),
    Sound (drawList.go d count drawn)
  | 0, _ => .pure _
  | count + 1, _ => h.bind fun _ => drawList_go h count _

theorem drawList (h : Sound d) (count : Nat) : Sound (drawList count d) :=
  h.drawList_go count []

theorem characters {alphabet : List Char} (h : alphabet ≠ []) (count : Nat) :
    Sound (characters alphabet count) :=
  ((pick h ' ').drawList count).map String.ofList

theorem pickText {members : List String} (h : members ≠ []) : Sound (pickText members) :=
  pick h ""

theorem natBetween {low high : Nat} (hle : low ≤ high) (hhigh : high < wordCount) :
    Sound (natBetween low high) := by
  have hint : Sound (KeyStream.intBetween low high) := .intBetween (by omega) (by omega)
  exact hint.map fun n => String.ofList (Text.intText n)

end Sound

end JsonTemplate.Generator
