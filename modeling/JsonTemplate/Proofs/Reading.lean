import Mathlib.Data.List.Infix
import JsonTemplate.Json.Printer
import JsonTemplate.Json.Reader
import JsonTemplate.PlainJson
import JsonTemplate.Proofs.PlaceholderText
import JsonTemplate.Proofs.Steps

/-!
# Reading strings

What a whole string does to a reader that is not within one (`takeString?`), be it a quoted text
(`readFrom?_quoted`) or a literal as it is taken off a template (`readFrom?_literal`): a literal
ends for the reader where it ends for the template, or else the reader stops within it.
-/

namespace JsonTemplate

theorem eq_ok_of_toOption {ε α : Type} {x : Except ε α} {a : α} (h : x.toOption = some a) :
    x = .ok a := by
  cases x <;> cases h
  rfl

namespace Json

open Text ReaderState

/-- The value of a text that is read from a state on, if there is one. -/
def readFrom? (s : ReaderState) (t : List Char) : Option Json :=
  match run s t with
  | .ok s => s.close.toOption
  | .error _ => none

theorem readFrom?_cons (s : ReaderState) (c : Char) (t : List Char) :
    readFrom? s (c :: t) = (s.step c).toOption.bind fun s => readFrom? s t := by
  simp only [readFrom?, run]
  cases s.step c <;> rfl

theorem readFrom?_nil_iff {s : ReaderState} {v : Json} :
    readFrom? s [] = some v ↔ s.close = .ok v := by
  change s.close.toOption = some v ↔ _
  cases s.close <;> simp [Except.toOption]

theorem readFrom?_cons_iff {s : ReaderState} {c : Char} {t : List Char} {v : Json} :
    readFrom? s (c :: t) = some v ↔ ∃ s', s.step c = .ok s' ∧ readFrom? s' t = some v := by
  rw [readFrom?_cons]
  cases s.step c <;> simp [Except.toOption]

theorem readFrom?_append {s s' : ReaderState} {t : List Char} (h : run s t = .ok s')
    (u : List Char) : readFrom? s (t ++ u) = readFrom? s' u := by
  rw [readFrom?, run_append h, readFrom?]

theorem read_eq_ok_iff {t : List Char} {v : Json} :
    Json.read t = .ok v ↔ readFrom? .initial t = some v := by
  unfold Json.read readFrom?
  cases run .initial t with
  | error stop => simp
  | ok s =>
    simp only
    cases s.close <;> simp [Except.toOption]

theorem toOption_read (t : List Char) : (Json.read t).toOption = readFrom? .initial t := by
  cases hr : Json.read t with
  | ok v => exact (read_eq_ok_iff.1 hr).symm
  | error e =>
    cases hf : readFrom? .initial t with
    | none => rfl
    | some v =>
      rw [read_eq_ok_iff.2 hf] at hr
      cases hr

namespace ReaderState

/-- The reader is not within a string, nor awaits a quote for anything but a string. -/
def IsBetween (s : ReaderState) : Prop :=
  match s.phase with
  | .string .. => False
  | .word rest _ => rest ≠ [] ∧ '"' ∉ rest
  | _ => True

/-- The containers around a string that begins here, and what it is read for, if one may begin. -/
def openString? (s : ReaderState) : Option (List Frame × StringRole) :=
  match s.phase with
  | .value => some (s.frames, .value)
  | .firstItem => some (.array [] :: s.frames, .value)
  | .nextItem items => some (.array items :: s.frames, .value)
  | .firstKey => some (s.frames, .key [])
  | .nextKey fields => some (s.frames, .key fields)
  | _ => none

/-- What a whole string does to a reader that is not within one. -/
def takeString? (s : ReaderState) (x : String) : Option ReaderState :=
  s.openString?.map fun (frames, role) => endString frames role x.toList.reverse

theorem afterValue_deliver_quote (v : Json) (frames : List Frame) :
    ((deliver v frames).afterValue '"').toOption = none := by
  rcases frames with _ | ⟨_ | _, frames⟩ <;> rfl

theorem step_number_quote (draft : NumberDraft) : ∀ d, draft.step '"' ≠ .more d := by
  intro d
  have hd : '"'.isDigit = false := rfl
  have hl : ∀ (e : NumberDraft) b, e.leave b '"' = .finished := by
    intro e b
    simp [NumberDraft.leave, NumberDraft.isMark]
  unfold NumberDraft.step
  cases draft.part <;> simp [hd, hl]

theorem step_quote {s : ReaderState} (h : s.IsBetween) :
    (s.step '"').toOption = s.openString?.map fun (frames, role) =>
      ⟨frames, .string role [] .plain⟩ := by
  obtain ⟨frames, phase⟩ := s
  cases phase with
  | string role read part => exact h.elim
  | word rest v =>
    cases rest with
    | nil => exact absurd rfl h.1
    | cons d rest =>
      have hd : '"' ≠ d := fun hd => h.2 (hd ▸ List.mem_cons_self)
      simp only [step, openString?, hd, ne_eq, not_false_eq_true, if_true]
      rfl
  | number draft =>
    simp only [step, openString?]
    split
    · rename_i d hd
      exact absurd hd (step_number_quote draft d)
    · rfl
    · split
      · exact afterValue_deliver_quote _ _
      · rfl
  | _ => rfl

theorem isBetween_initial : initial.IsBetween :=
  trivial

theorem isBetween_deliver (v : Json) (frames : List Frame) : (deliver v frames).IsBetween := by
  rcases frames with _ | ⟨_ | _, frames⟩ <;> trivial

theorem isBetween_startValue {frames : List Frame} {c : Char} {s : ReaderState} (hc : c ≠ '"')
    (hs : startValue frames c = .ok s) : s.IsBetween := by
  cases starts_of_startValue hs with
  | string => exact absurd rfl hc
  | null | true | false => exact ⟨by decide, by decide⟩
  | array | object | number => trivial

/-- No character but a quote begins a string. -/
theorem isBetween_step {s s' : ReaderState} {c : Char} (h : s.IsBetween) (hc : c ≠ '"')
    (hs : s.step c = .ok s') : s'.IsBetween := by
  have hsteps := steps_of_step hs
  clear hs
  induction hsteps with
  | blank => exact h
  | value hs | firstItem hs | nextItem hs => exact isBetween_startValue hc hs
  | firstKey | nextKey => exact absurd rfl hc
  | colon | itemComma | fieldComma | digit => trivial
  | noItems | items | noFields | fields | word => exact isBetween_deliver _ _
  | letter hrest => exact ⟨hrest, fun hm => h.2 (List.mem_cons_of_mem _ hm)⟩
  | unquote | quoted => exact h.elim
  | number _ _ _ ih => exact ih (isBetween_deliver _ _) hc

end ReaderState

/-! ## Literals -/

namespace ReaderState

/-- The next character is escaped. -/
def isEscaping : StringPart → Bool
  | .backslash | .pairLetter _ => true
  | _ => false

theorem isEscaping_stringStep {read read' : List Char} {part part' : StringPart} {c : Char}
    (h : stringStep read part c = .ok (read', part')) :
    isEscaping part' = (!isEscaping part && c == '\\') := by
  have hslash : hexValue? '\\' = none := by decide
  cases stringSteps_of_stringStep h with
  | plain hc => simp [isEscaping, hc]
  | backslash | escaped | code | pairBackslash | pairLetter => rfl
  | digit hc | char hc | high hc | low hc => simp [isEscaping, ne_of_hexValue? hslash hc]

/-- A quote that does not end a string is escaped. -/
theorem ne_quote_of_stringStep {read read' : List Char} {part part' : StringPart} {c : Char}
    (h : stringStep read part c = .ok (read', part')) (hend : ¬ (c = '"' ∧ isPlain part = true))
    (hescaping : isEscaping part = false) : c ≠ '"' := by
  have hquote : hexValue? '"' = none := by decide
  cases stringSteps_of_stringStep h with
  | plain | backslash => exact fun hc => hend ⟨hc, rfl⟩
  | escaped | code | pairLetter => cases hescaping
  | digit hc | char hc | high hc | low hc => exact ne_of_hexValue? hquote hc
  | pairBackslash => decide

theorem isEscaping_eq_false_of_isPlain {part : StringPart} (h : isPlain part = true) :
    isEscaping part = false := by
  cases part <;> first | rfl | cases h

theorem step_string (frames : List Frame) (role : StringRole) (read : List Char)
    (part : StringPart) (c : Char) :
    (step ⟨frames, .string role read part⟩ c).toOption =
      if c = '"' ∧ isPlain part then some (endString frames role read)
      else (stringStep read part c).toOption.map fun (read, part) =>
        ⟨frames, .string role read part⟩ := by
  simp only [step]
  split
  · rfl
  · cases stringStep read part c <;> rfl

end ReaderState

/-- The characters of a string, the last one first, from within it to the quote that ends it. -/
def spelled? (read : List Char) (part : StringPart) : List Char → Option (List Char)
  | [] => none
  | c :: t =>
    if c = '"' ∧ isPlain part then if t = [] then some read else none
    else (stringStep read part c).toOption.bind fun (read, part) => spelled? read part t

/-- A string ends with its quote, or goes on with a step. -/
theorem spelled?_cons_eq_some {read x t : List Char} {part : StringPart} {c : Char}
    (h : spelled? read part (c :: t) = some x) :
    (c = '"' ∧ isPlain part = true ∧ t = [] ∧ x = read)
      ∨ ∃ read' part', ¬ (c = '"' ∧ isPlain part = true)
        ∧ stringStep read part c = .ok (read', part') ∧ spelled? read' part' t = some x := by
  rw [spelled?] at h
  split at h
  · rename_i hend
    split at h
    · cases h
      exact .inl ⟨hend.1, hend.2, ‹_›, rfl⟩
    · cases h
  · obtain ⟨⟨read', part'⟩, hs, h⟩ := Option.bind_eq_some_iff.1 h
    exact .inr ⟨read', part', ‹_›, eq_ok_of_toOption hs, h⟩

/-- The head of a literal always belongs to it. -/
theorem splitQuoted_cons_fst (escaped : Bool) (c : Char) (t : List Char) :
    ∃ t', (Operand.splitQuoted escaped (c :: t)).1 = c :: t' := by
  cases escaped with
  | true => exact ⟨_, rfl⟩
  | false =>
    rw [Operand.splitQuoted]
    split <;> exact ⟨_, rfl⟩

theorem splitQuoted_cons_of_stringStep {read read' : List Char} {part part' : StringPart}
    {c : Char} (h : stringStep read part c = .ok (read', part'))
    (hc : ¬ (c = '"' ∧ isPlain part = true)) (t : List Char) :
    Operand.splitQuoted (isEscaping part) (c :: t)
      = (c :: (Operand.splitQuoted (isEscaping part') t).1,
          (Operand.splitQuoted (isEscaping part') t).2) := by
  rw [isEscaping_stringStep h]
  cases hesc : isEscaping part with
  | true => rfl
  | false =>
    rw [Operand.splitQuoted, if_neg (ne_quote_of_stringStep h hc hesc)]
    rfl

/-- A string within which the reader is ends where the template ends its literal, unless the reader
stops before; a literal without an end takes all. -/
theorem readFrom?_splitQuoted (frames : List Frame) (role : StringRole) {u : List Char} :
    ∀ {t : List Char} (read : List Char) (part : StringPart),
      ((Operand.splitQuoted (isEscaping part) t).2 = [] → u = []) →
      readFrom? ⟨frames, .string role read part⟩ ((Operand.splitQuoted (isEscaping part) t).1 ++ u)
        = (spelled? read part (Operand.splitQuoted (isEscaping part) t).1).bind fun x =>
          readFrom? (endString frames role x) u
  | [], read, part, hu => by
    have hu : u = [] := hu (by cases isEscaping part <;> rfl)
    have ht : (Operand.splitQuoted (isEscaping part) []).1 = [] := by
      cases isEscaping part <;> rfl
    rw [hu, ht]
    rfl
  | c :: t, read, part, hu => by
    by_cases hend : c = '"' ∧ isPlain part = true
    · obtain ⟨rfl, hpart⟩ := hend
      have hesc := isEscaping_eq_false_of_isPlain hpart
      rw [hesc, Operand.splitQuoted, if_pos rfl] at hu ⊢
      rw [List.cons_append, readFrom?_cons, step_string, if_pos ⟨rfl, hpart⟩]
      simp [spelled?, hpart]
    · cases hs : stringStep read part c with
      | error r =>
        obtain ⟨t', ht'⟩ := splitQuoted_cons_fst (isEscaping part) c t
        rw [ht', List.cons_append, readFrom?_cons, step_string, if_neg hend, spelled?, if_neg hend,
          hs]
        rfl
      | ok r =>
        obtain ⟨read', part'⟩ := r
        rw [splitQuoted_cons_of_stringStep hs hend] at hu ⊢
        rw [List.cons_append, readFrom?_cons, step_string, if_neg hend, spelled?, if_neg hend, hs]
        exact readFrom?_splitQuoted frames role read' part' hu

/-- The string that a literal denotes, if it is a JSON string. -/
def literalText? (t : List Char) : Option String :=
  (Json.read t).toOption.bind Json.toString?

theorem literalText?_eq (t : List Char) :
    literalText? ('"' :: (Operand.splitQuoted false t).1)
      = (spelled? [] .plain (Operand.splitQuoted false t).1).map fun x =>
        String.ofList x.reverse := by
  have h := readFrom?_splitQuoted (u := []) (t := t) [] .value [] .plain
    fun _ => rfl
  have hstart : readFrom? .initial ('"' :: (Operand.splitQuoted false t).1)
      = readFrom? ⟨[], .string .value [] .plain⟩ (Operand.splitQuoted false t).1 := by
    rw [readFrom?_cons]
    rfl
  rw [show isEscaping .plain = false from rfl, List.append_nil] at h
  rw [literalText?, toOption_read, hstart, h]
  cases spelled? [] .plain (Operand.splitQuoted false t).1 <;> rfl

/-- A literal is read as the string that it denotes. -/
theorem readFrom?_literal {s : ReaderState} (hs : s.IsBetween) {t u : List Char}
    (hu : (Operand.splitQuoted false t).2 = [] → u = []) :
    readFrom? s ('"' :: (Operand.splitQuoted false t).1 ++ u)
      = (literalText? ('"' :: (Operand.splitQuoted false t).1)).bind fun x =>
        (s.takeString? x).bind fun s => readFrom? s u := by
  rw [literalText?_eq, List.cons_append, readFrom?_cons, step_quote hs]
  simp only [takeString?]
  rcases s.openString? with _ | ⟨frames, role⟩
  · cases spelled? [] .plain (Operand.splitQuoted false t).1 <;> rfl
  · have h := readFrom?_splitQuoted (u := u) (t := t) frames role [] .plain hu
    rw [show isEscaping .plain = false from rfl] at h
    refine h.trans ?_
    cases spelled? [] .plain (Operand.splitQuoted false t).1 with
    | none => rfl
    | some x => simp

/-! ## Texts without escapes -/

/-- The characters that make an escape of a JSON string with a backslash before them. -/
def escapable : List Char :=
  ['"', '\\', '/', 'b', 'f', 'n', 'r', 't', 'u']

/-- No escape of a JSON string is in the text. -/
def Escapeless (t : List Char) : Prop :=
  ∀ c ∈ escapable, ¬ ['\\', c] <:+: t

instance (t : List Char) : Decidable (Escapeless t) :=
  List.decidableBAll (fun c => ¬ ['\\', c] <:+: t) escapable

theorem Escapeless.part {s t : List Char} (h : Escapeless t) (hs : s <:+: t) : Escapeless s :=
  fun c hc hi => h c hc (hi.trans hs)

theorem escapeless_of_notMem {t : List Char} (h : '\\' ∉ t) : Escapeless t :=
  fun _ _ hi => h (hi.subset List.mem_cons_self)

theorem mem_escapable_of_stringStep {read read' : List Char} {part' : StringPart} {c : Char}
    (h : stringStep read .backslash c = .ok (read', part')) : c ∈ escapable := by
  cases stringSteps_of_stringStep h with
  | escaped hc =>
    unfold unescape? at hc
    split at hc
    · rename_i hself
      rcases hself with rfl | rfl | rfl <;> decide
    iterate 5
      split at hc
      · subst c
        decide
    cases hc
  | code => decide

/-- Without escapes a string is spelled by the characters before its quote. -/
theorem spelled?_of_escapeless : ∀ {t read x : List Char}, Escapeless t →
    spelled? read .plain t = some x →
      ∃ body, t = body ++ ['"'] ∧ '"' ∉ body ∧ x = body.reverse ++ read
  | [], _, _, _, h => by cases h
  | c :: t, read, x, ht, h => by
    obtain ⟨rfl, -, rfl, rfl⟩ | ⟨read', part', hend, hs, h⟩ := spelled?_cons_eq_some h
    · exact ⟨[], rfl, by simp, rfl⟩
    · have hc : c ≠ '"' := fun hc => hend ⟨hc, rfl⟩
      cases stringSteps_of_stringStep hs with
      | plain =>
        have ht' := ht.part (List.suffix_cons c t).isInfix
        obtain ⟨body, rfl, hbody, rfl⟩ := spelled?_of_escapeless ht' h
        exact ⟨c :: body, rfl, by simp [hbody, Ne.symm hc], by simp⟩
      | backslash =>
        cases t with
        | nil => cases h
        | cons d t =>
          obtain ⟨-, hplain, -⟩ | ⟨read'', part'', -, hd, -⟩ := spelled?_cons_eq_some h
          · cases hplain
          · exact absurd ⟨[], t, rfl⟩ (ht d (mem_escapable_of_stringStep hd))

/-- A literal without escapes denotes what is between its quotes. -/
theorem literalText?_of_escapeless {t : List Char} {x : String}
    (ht : Escapeless (Operand.splitQuoted false t).1)
    (h : literalText? ('"' :: (Operand.splitQuoted false t).1) = some x) :
    (Operand.splitQuoted false t).1 = x.toList ++ ['"'] ∧ '"' ∉ x.toList := by
  rw [literalText?_eq] at h
  obtain ⟨y, hy, rfl⟩ := Option.map_eq_some_iff.1 h
  obtain ⟨body, hbody, hquote, rfl⟩ := spelled?_of_escapeless ht hy
  simpa using ⟨hbody, hquote⟩

/-! ## Quoted texts -/

theorem hexValue?_hexDigit : ∀ n, n < 16 → hexValue? (hexDigit n) = some n := by
  decide

theorem run_escapeChar (frames : List Frame) (role : StringRole) (read : List Char) (c : Char) :
    run ⟨frames, .string role read .plain⟩ (escapeChar c)
      = .ok ⟨frames, .string role (c :: read) .plain⟩ := by
  unfold escapeChar
  split
  · subst c
    rfl
  split
  · subst c
    rfl
  split
  · subst c
    rfl
  split
  · subst c
    rfl
  split
  · subst c
    rfl
  split
  · subst c
    rfl
  split
  · subst c
    rfl
  split
  · rename_i hc
    have hn : c.toNat < 32 := hc
    have h₁ := hexValue?_hexDigit (c.toNat / 16) (by omega)
    have h₂ := hexValue?_hexDigit (c.toNat % 16) (by omega)
    have h₃ : hexValue? '0' = some 0 := rfl
    have hvalue : 16 * (c.toNat / 16) + c.toNat % 16 = c.toNat := by omega
    have hlow : ¬ (0xDC00 ≤ c.toNat ∧ c.toNat ≤ 0xDFFF) := by omega
    have hhigh : ¬ (0xD800 ≤ c.toNat ∧ c.toNat ≤ 0xDBFF) := by omega
    have hq : ∀ n, hexValue? '"' ≠ some n := by simp [show hexValue? '"' = none from rfl]
    have hne : ∀ {d n}, hexValue? d = some n → d ≠ '"' := fun hd h => hq _ (h ▸ hd)
    simp [run, step, stringStep, isPlain, h₁, h₂, h₃, hne h₁, hne h₂, endHex, hvalue,
      hlow, hhigh]
  · rename_i hquote hslash _ _ _ _ _ hc
    simp [run, step, hquote, stringStep, hslash, hc]

theorem run_escaped (frames : List Frame) (role : StringRole) : ∀ (t read : List Char),
    run ⟨frames, .string role read .plain⟩ (t.flatMap escapeChar)
      = .ok ⟨frames, .string role (t.reverse ++ read) .plain⟩
  | [], _ => rfl
  | c :: t, read => by
    rw [List.flatMap_cons, run_append (run_escapeChar frames role read c), run_escaped]
    simp

/-- A quoted text is read as the text. -/
theorem readFrom?_quoted {s : ReaderState} (hs : s.IsBetween) (t u : List Char) :
    readFrom? s (quoted t ++ u)
      = (s.takeString? (String.ofList t)).bind fun s => readFrom? s u := by
  rw [quoted, List.cons_append, List.cons_append, readFrom?_cons, step_quote hs, takeString?]
  rcases s.openString? with _ | ⟨frames, role⟩
  · rfl
  · have h := run_append (run_escaped frames role t []) ['"']
    have hend : run ⟨frames, .string role (t.reverse ++ []) .plain⟩ ['"']
        = .ok (endString frames role t.reverse) := by
      simp [run, step, isPlain]
    rw [hend] at h
    simp only [Option.map_some, Option.bind_some]
    rw [readFrom?_append h, String.toList_ofList]

theorem read_quoted (t : List Char) : Json.read (quoted t) = .ok (.string (String.ofList t)) := by
  have := readFrom?_quoted isBetween_initial t []
  rw [List.append_nil] at this
  rw [read_eq_ok_iff, this]
  simp [takeString?, openString?, initial, endString, deliver, readFrom?, Json.run, close,
    Except.toOption]

theorem escapeChar_of_isNameChar {c : Char} (h : Token.isNameChar c = true) :
    escapeChar c = [c] := by
  have hc : ¬ c < ' ' := by
    intro hlt
    have hlow : c.toNat < 32 := hlt
    have := Token.toNat_of_isNameChar h
    omega
  have hne : ∀ d, Token.isNameChar d = false → c ≠ d := by
    rintro d hd rfl
    rw [h] at hd
    cases hd
  simp only [escapeChar, hc, hne '"' rfl, hne '\\' rfl, hne '\x08' rfl, hne '\x0C' rfl,
    hne '\n' rfl, hne '\r' rfl, hne '\t' rfl, if_false]

theorem flatMap_escapeChar_of_isNameChar : ∀ {t : List Char},
    (∀ c ∈ t, Token.isNameChar c = true) → t.flatMap escapeChar = t
  | [], _ => rfl
  | c :: t, h => by
    rw [List.flatMap_cons, escapeChar_of_isNameChar (h c List.mem_cons_self),
      flatMap_escapeChar_of_isNameChar fun d hd => h d (List.mem_cons_of_mem _ hd)]
    rfl

theorem quoted_of_isNameChar {t : List Char} (h : ∀ c ∈ t, Token.isNameChar c = true) :
    quoted t = '"' :: t ++ ['"'] := by
  rw [quoted, flatMap_escapeChar_of_isNameChar h]

end Json

end JsonTemplate
