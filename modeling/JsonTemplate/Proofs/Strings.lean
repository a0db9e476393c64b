import JsonTemplate.Proofs.Pieces

/-!
# The strings of what is read

Each string of a value that is read from pieces comes from a chain, and no chain gives more than
one (`count_readAll?`). A chain is the name of a field only if a colon follows it.
-/

namespace JsonTemplate

namespace Json

section Collecting

variable {α : Type} (K V : String → List α)

mutual

/-- What `K` makes of the names of fields and `V` of the string values, in document order. -/
def collect : Json → List α
  | .null | .bool _ | .number _ => []
  | .string s => V s
  | .array items => collectItems items
  | .object fields => collectFields fields

def collectItems : List Json → List α
  | [] => []
  | item :: rest => collect item ++ collectItems rest

def collectFields : Fields → List α
  | [] => []
  | (key, value) :: rest => K key ++ (collect value ++ collectFields rest)

end

end Collecting

/-- The string values of a tree. -/
def values : Json → List String :=
  collect (fun _ => []) fun s => [s]

def valuesOfItems : List Json → List String :=
  collectItems (fun _ => []) fun s => [s]

def valuesOfFields : Fields → List String :=
  collectFields (fun _ => []) fun s => [s]

/-- The names of the fields of a tree. -/
def keys : Json → List String :=
  collect (fun k => [k]) fun _ => []

def keysOfItems : List Json → List String :=
  collectItems (fun k => [k]) fun _ => []

def keysOfFields : Fields → List String :=
  collectFields (fun k => [k]) fun _ => []

@[simp] theorem values_string (s : String) : (string s).values = [s] :=
  rfl

@[simp] theorem values_array (items : List Json) : (array items).values = valuesOfItems items :=
  rfl

@[simp] theorem values_object (fields : Fields) :
    (object fields).values = valuesOfFields fields :=
  rfl

@[simp] theorem valuesOfItems_cons (item : Json) (rest : List Json) :
    valuesOfItems (item :: rest) = item.values ++ valuesOfItems rest :=
  rfl

@[simp] theorem valuesOfFields_cons (key : String) (value : Json) (rest : Fields) :
    valuesOfFields ((key, value) :: rest) = value.values ++ valuesOfFields rest :=
  rfl

@[simp] theorem keysOfItems_cons (item : Json) (rest : List Json) :
    keysOfItems (item :: rest) = item.keys ++ keysOfItems rest :=
  rfl

@[simp] theorem keysOfFields_cons (key : String) (value : Json) (rest : Fields) :
    keysOfFields ((key, value) :: rest) = key :: (value.keys ++ keysOfFields rest) :=
  rfl

theorem collectItems_eq_flatMap {α : Type} (K V : String → List α) (vs : List Json) :
    collectItems K V vs = vs.flatMap (collect K V) := by
  induction vs with
  | nil => rfl
  | cons v vs ih => rw [collectItems, List.flatMap_cons, ih]

theorem mem_valuesOfItems {x : String} {vs : List Json} :
    x ∈ valuesOfItems vs ↔ ∃ v ∈ vs, x ∈ v.values := by
  rw [valuesOfItems, collectItems_eq_flatMap, List.mem_flatMap]
  rfl

theorem mem_keysOfItems {x : String} {vs : List Json} :
    x ∈ keysOfItems vs ↔ ∃ v ∈ vs, x ∈ v.keys := by
  rw [keysOfItems, collectItems_eq_flatMap, List.mem_flatMap]
  rfl

theorem mem_keys_of_firstItem? {x : String} {v item : Json} (h : v.firstItem? = some item)
    (hx : x ∈ item.keys) : x ∈ v.keys := by
  cases v with
  | array items =>
    cases items with
    | nil => cases h
    | cons first items =>
      obtain rfl : first = item := Option.some.inj h
      exact mem_keysOfItems.2 ⟨first, List.mem_cons_self, hx⟩
  | _ => cases h

section Counting

variable {α : Type} [DecidableEq α] {K V : String → List α}

theorem count_collectItems_reverse (x : α) (vs : List Json) :
    (collectItems K V vs.reverse).count x = (collectItems K V vs).count x := by
  simp only [collectItems_eq_flatMap]
  exact ((List.reverse_perm vs).flatMap_right _).count_eq x

/-- A field that is put in may displace an older value. -/
theorem count_collectFields_insert (x : α) (key : String) (v : Json) (fs : Fields) :
    (collectFields K V (Fields.insert key v fs)).count x
      ≤ (K key).count x + (collect K V v).count x + (collectFields K V fs).count x := by
  induction fs with
  | nil =>
    simp only [Fields.insert, collectFields, List.count_append, List.count_nil]
    omega
  | cons f fs ih =>
    obtain ⟨k, w⟩ := f
    by_cases h : k = key
    · subst h
      simp only [Fields.insert, if_true, collectFields, List.count_append]
      omega
    · simp only [Fields.insert, if_neg h, collectFields, List.count_append]
      omega

namespace ReaderState

variable (K V) in
def collectFrames : List Frame → List α
  | [] => []
  | .array items :: rest => collectItems K V items ++ collectFrames rest
  | .object fields key :: rest => collectFields K V fields ++ (K key ++ collectFrames rest)

variable (K V) in
def collectPhase : Phase → List α
  | .nextItem items | .afterItem items => collectItems K V items
  | .nextKey fields | .afterField fields => collectFields K V fields
  | .colon fields key => collectFields K V fields ++ K key
  | .finished v | .word _ v => collect K V v
  | .string (.key fields) _ _ => collectFields K V fields
  | .value | .firstItem | .firstKey | .string .value _ _ | .number _ => []

variable (K V) in
/-- What has been collected so far. -/
def collected (s : ReaderState) : List α :=
  collectPhase K V s.phase ++ collectFrames K V s.frames

theorem count_deliver (x : α) (v : Json) : ∀ frames : List Frame,
    ((deliver v frames).collected K V).count x
      ≤ (collect K V v).count x + (collectFrames K V frames).count x
  | [] => by simp [deliver, collected, collectPhase, collectFrames]
  | .array items :: rest => by
    simp [deliver, collected, collectPhase, collectFrames, collectItems]
  | .object fields key :: rest => by
    have := count_collectFields_insert (K := K) (V := V) x key v fields
    simp only [deliver, collected, collectPhase, collectFrames, List.count_append]
    omega

theorem count_startValue (x : α) {frames : List Frame} {s : ReaderState} {c : Char} (hc : c ≠ '"')
    (h : startValue frames c = .ok s) :
    (s.collected K V).count x ≤ (collectFrames K V frames).count x := by
  cases starts_of_startValue h with
  | string => exact absurd rfl hc
  | array | object | null | true | false | number => simp [collected, collectPhase, collect]

theorem count_step (x : α) {s s' : ReaderState} {c : Char} (hs : s.IsBetween) (hc : c ≠ '"')
    (h : s.step c = .ok s') : (s'.collected K V).count x ≤ (s.collected K V).count x := by
  have hsteps := steps_of_step h
  clear h
  induction hsteps with
  | blank | itemComma | fieldComma | letter | digit => exact Nat.le_refl _
  | value hstart | firstItem hstart | nextItem hstart =>
    have := count_startValue (K := K) (V := V) x hc hstart
    simpa [collected, collectPhase, collectFrames, collectItems] using this
  | firstKey | nextKey => exact absurd rfl hc
  | colon => simp [collected, collectPhase, collectFrames]
  | @noItems frames =>
    have := count_deliver (K := K) (V := V) x (.array []) frames
    simpa [collected, collectPhase, collect, collectItems] using this
  | @items frames items =>
    have := count_deliver (K := K) (V := V) x (.array items.reverse) frames
    simpa [collected, collectPhase, collect, count_collectItems_reverse] using this
  | @noFields frames =>
    have := count_deliver (K := K) (V := V) x (.object []) frames
    simpa [collected, collectPhase, collect, collectFields] using this
  | @fields frames fields =>
    have := count_deliver (K := K) (V := V) x (.object fields) frames
    simpa [collected, collectPhase, collect] using this
  | @word frames c rest v =>
    simpa [collected, collectPhase] using count_deliver (K := K) (V := V) x v frames
  | unquote | quoted => exact hs.elim
  | @number frames draft n =>
    rename_i ih
    have hnumber := count_deliver (K := K) (V := V) x (.number n) frames
    simp only [collect, List.count_nil, Nat.zero_add] at hnumber
    exact Nat.le_trans (ih (isBetween_deliver _ _) hc)
      (by simpa [collected, collectPhase] using hnumber)

/-- A whole string is a value or the name of the next field. -/
theorem count_takeString? (x : α) {s s' : ReaderState} {y : String}
    (h : s.takeString? y = some s') :
    (s'.collected K V).count x ≤ (s.collected K V).count x + (V y).count x
      ∨ (∃ fields, s'.phase = .colon fields y)
        ∧ (s'.collected K V).count x ≤ (s.collected K V).count x + (K y).count x := by
  obtain ⟨frames, phase⟩ := s
  have hvalue : ∀ frames : List Frame,
      ((endString frames .value y.toList.reverse).collected K V).count x
        ≤ (V y).count x + (collectFrames K V frames).count x := by
    intro frames
    have := count_deliver (K := K) (V := V) x (.string y) frames
    simpa [endString, collect] using this
  cases phase with
  | value =>
    cases h
    left
    refine Nat.le_trans (hvalue frames) ?_
    simp only [collected, collectPhase, List.nil_append]
    omega
  | firstItem =>
    cases h
    left
    refine Nat.le_trans (hvalue (.array [] :: frames)) ?_
    simp only [collected, collectPhase, collectFrames, collectItems, List.nil_append]
    omega
  | nextItem items =>
    cases h
    left
    refine Nat.le_trans (hvalue (.array items :: frames)) ?_
    simp only [collected, collectPhase, collectFrames, List.count_append]
    omega
  | firstKey =>
    cases h
    right
    refine ⟨⟨[], by simp [endString]⟩, ?_⟩
    simp [endString, collected, collectPhase, collectFields]
    omega
  | nextKey fields =>
    cases h
    right
    refine ⟨⟨fields, by simp [endString]⟩, ?_⟩
    simp [endString, collected, collectPhase]
    omega
  | _ => cases h

theorem count_close (x : α) {s : ReaderState} {v : Json} (h : s.close = .ok v) :
    (collect K V v).count x ≤ (s.collected K V).count x := by
  rcases close_cases h with ⟨frames, rfl⟩ | ⟨draft, n, rfl, -, rfl⟩
  · simp [collected, collectPhase]
  · simp [collect]

end ReaderState

end Counting

end Json

namespace Piece

open Json Json.ReaderState

/-- Whether the next character that is not blank is a colon. -/
def isColonNext : List Piece → Bool
  | .other c :: rest => c == ':' || Text.isJsonBlank c && isColonNext rest
  | _ => false

theorem isColonNext_of_readAll? {fields : Fields} {key : String} {v : Json} :
    ∀ {ps : List Piece} {p : Placeholders} {s : ReaderState}, s.phase = .colon fields key →
      readAll? ps p s = some v → isColonNext ps = true
  | [], p, s, hs, h => by
    simp [readAll?, close, hs, Except.toOption] at h
  | .other c :: rest, p, s, hs, h => by
    rw [isColonNext, Bool.or_eq_true, Bool.and_eq_true, beq_iff_eq]
    by_cases hcolon : c = ':'
    · exact .inl hcolon
    right
    by_cases hblank : Text.isJsonBlank c = true
    · have hstep : s.step c = .ok s := by
        simp [step, hs, hblank]
      rw [readAll?, hstep] at h
      exact ⟨hblank, isColonNext_of_readAll? hs h⟩
    · have hstep : (s.step c).toOption = none := by
        simp [step, hs, hblank, hcolon, refuse, Except.toOption]
      rw [readAll?, hstep] at h
      cases h
  | .chained chain :: rest, p, s, hs, h => by
    have htake : ∀ y, s.takeString? y = none := by
      intro y
      simp [takeString?, openString?, hs]
    simp [readAll?, htake] at h

section Contents

variable {α : Type} (K V : String → List α)

/-- What the chains are read as, taken as values and, where a colon follows, as names. -/
def collectContents : List Piece → Placeholders → List α
  | [], _ => []
  | .other _ :: rest, p => collectContents rest p
  | .chained chain :: rest, p =>
    (match chain.content? p with
      | some y => (if isColonNext rest then K y else []) ++ V y
      | none => [])
    ++ collectContents rest (chain.toPlain p).2

end Contents

variable {α : Type} [DecidableEq α] {K V : String → List α}

/-- Each string of a value comes from a chain, and no chain gives more than one. -/
theorem count_readAll? (x : α) {v : Json} : ∀ {ps : List Piece} {p : Placeholders}
    {s : ReaderState}, s.IsBetween → (∀ c, .other c ∈ ps → c ≠ '"') → readAll? ps p s = some v →
      (collect K V v).count x
        ≤ (s.collected K V).count x + (collectContents K V ps p).count x
  | [], p, s, hs, hc, h => by
    rw [readAll?] at h
    cases hclose : s.close with
    | error e =>
      rw [hclose] at h
      cases h
    | ok w =>
      rw [hclose] at h
      cases h
      have := count_close (K := K) (V := V) x hclose
      omega
  | .other c :: rest, p, s, hs, hc, h => by
    rw [readAll?] at h
    cases hstep : s.step c with
    | error r =>
      rw [hstep] at h
      cases h
    | ok s' =>
      rw [hstep] at h
      have hquote := hc c List.mem_cons_self
      have h₁ := count_step (K := K) (V := V) x hs hquote hstep
      have h₂ := count_readAll? x (isBetween_step hs hquote hstep)
        (fun d hd => hc d (List.mem_cons_of_mem _ hd)) h
      rw [collectContents]
      omega
  | .chained chain :: rest, p, s, hs, hc, h => by
    rw [readAll?] at h
    obtain ⟨y, hy, h⟩ := Option.bind_eq_some_iff.1 h
    obtain ⟨s', hs', h⟩ := Option.bind_eq_some_iff.1 h
    have h₂ := count_readAll? x (isBetween_takeString? hs')
      (fun d hd => hc d (List.mem_cons_of_mem _ hd)) h
    rw [collectContents, hy, List.count_append, List.count_append]
    rcases count_takeString? (K := K) (V := V) x hs' with h₁ | ⟨⟨fields, hcolon⟩, h₁⟩
    · omega
    · rw [if_pos (isColonNext_of_readAll? hcolon h)]
      omega

end Piece

end JsonTemplate
