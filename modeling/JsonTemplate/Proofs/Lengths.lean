import JsonTemplate.Generator.Catalogue
import JsonTemplate.Proofs.DoubleValues
import JsonTemplate.Proofs.Draws
import JsonTemplate.Proofs.Handling

/-!
# Lengths of generated texts

Six methods make a text whose length is their first argument. A length below 2^53 is kept, with its
fraction cut off. An argument that is no length is refused by the generator; of that only the method
for passwords makes a report, since the others are called a second time, with options that say
nothing about the length, and give a text of their default length (`resolve_length_iff`).
-/

namespace JsonTemplate

open Width

/-- What a number denotes that JSON can have: an integer of 64 bits, with or without a sign, or a
finite double. -/
def JsonNumber.value? : JsonNumber → Option ℚ
  | .integer n => if leastInt64 ≤ n ∧ n ≤ greatestNat64 then some n else none
  | .float x => x.value?

/-- A number as a double has its sign, and if it is below 2^53 its integer part. -/
theorem JsonNumber.exists_value?_toBinary64 {n : JsonNumber} {q : ℚ} (h : n.value? = some q) :
    ∃ r, n.toBinary64.value? = some r ∧ (q < 0 ↔ r < 0) ∧ (0 ≤ q → q < 2 ^ 53 → r = q) := by
  cases n with
  | float x => exact ⟨q, h, Iff.rfl, fun _ _ => rfl⟩
  | integer n =>
    rw [value?] at h
    split_ifs at h with hwide
    obtain rfl := Option.some.inj h
    unfold leastInt64 greatestNat64 at hwide
    refine ⟨Binary64.nearest n, Binary64.value?_ofInt (Binary64.log2_lt_of_le (by omega)), ?_, ?_⟩
    · rw [Int.cast_lt_zero, Int.cast_lt_zero]
      constructor
      · intro hn
        have hone : Binary64.nearest (-1) = -1 := by decide
        have hmono := Binary64.nearest_mono (by omega : n ≤ -1)
        omega
      · intro hn
        by_contra hnonneg
        have := Binary64.nearest_nonneg (not_lt.1 hnonneg)
        omega
    · intro hlow hhigh
      have hlow : 0 ≤ n := by exact_mod_cast hlow
      have hhigh : n < 2 ^ 53 := by exact_mod_cast hhigh
      rw [Binary64.nearest_eq_self (by omega)]

namespace Generator

open KeyStream Resolving

/-! ## The argument -/

/-- An argument that is no length: no number, or a negative one. -/
def Refused : Json → Prop
  | .number n => ∃ q, n.value? = some q ∧ q < 0
  | _ => True

/-- What is said about an argument that is no length. -/
def noLength (v : Json) : SourceError :=
  .invalidArgument ("expected a length, got " ++ v.compact)

/-- The two ways of passing a length. -/
inductive PassesLength (v : Json) : List Json → Prop
  | option : PassesLength v [.object [("length", v)]]
  | bare {rest : List Json} (h : ∀ fields, v ≠ .object fields) : PassesLength v (v :: rest)

/-- The number that is given as the length, if there is one. -/
def lengthNumber? : List Json → Option JsonNumber
  | .number n :: _ => some n
  | .object fields :: _ =>
    match Json.Fields.get? "length" fields with
    | some (.number n) => some n
    | _ => none
  | _ => none

theorem run_lengthArgument_of_some {n : JsonNumber} {args : List Json}
    (h : lengthNumber? args = some n) (default : Nat) (s : KeyStream) :
    (lengthArgument args default).run.run s
      = if (Binary64.zero false).le n.toBinary64 then
          .ok (.ok (n.toBinary64.truncate 0 greatestNat64).toNat, s)
        else .ok (.error (noLength (.number n)), s) := by
  have hrun : (lengthArgument args default).run.run s
      = (if (Binary64.zero false).le n.toBinary64 then
          (return (n.toBinary64.truncate 0 greatestNat64).toNat : Gen Nat)
        else invalid ("expected a length, got " ++ (Json.number n).compact)).run.run s := by
    unfold lengthNumber? at h
    split at h
    · cases h
      rfl
    · split at h
      · rename_i hget
        cases h
        unfold lengthArgument
        dsimp only
        rw [hget]
        rfl
      · cases h
    · cases h
  rw [hrun]
  split <;> rfl

/-- Without a number the default holds, or the argument is refused. -/
theorem run_lengthArgument_of_none {args : List Json} (h : lengthNumber? args = none)
    (default : Nat) (s : KeyStream) :
    (lengthArgument args default).run.run s = .ok (.ok default, s)
      ∨ ∃ v, (lengthArgument args default).run.run s = .ok (.error (noLength v), s) := by
  rcases args with _ | ⟨v, rest⟩
  · exact .inl rfl
  · cases v with
    | number n => cases h
    | object fields =>
      unfold lengthNumber? at h
      unfold lengthArgument
      dsimp only at h ⊢
      cases hget : Json.Fields.get? "length" fields with
      | none => exact .inl rfl
      | some v =>
        rw [hget] at h
        cases v with
        | number n => cases h
        | null | bool _ | string _ | array _ | object _ => exact .inr ⟨_, rfl⟩
    | null | bool _ | string _ | array _ => exact .inr ⟨_, rfl⟩

theorem run_lengthArgument_number {n : JsonNumber} {args : List Json}
    (h : PassesLength (.number n) args) (default : Nat) (s : KeyStream) :
    (lengthArgument args default).run.run s
      = if (Binary64.zero false).le n.toBinary64 then
          .ok (.ok (n.toBinary64.truncate 0 greatestNat64).toNat, s)
        else .ok (.error (noLength (.number n)), s) :=
  run_lengthArgument_of_some (by cases h <;> rfl) default s

theorem run_lengthArgument_of_value {n : JsonNumber} {q : ℚ} (hq : n.value? = some q)
    (hnonneg : 0 ≤ q) (hlt : q < 2 ^ 53) {args : List Json} (h : PassesLength (.number n) args)
    (default : Nat) (s : KeyStream) :
    (lengthArgument args default).run.run s = .ok (.ok ⌊q⌋₊, s) := by
  obtain ⟨r, hr, -, hself⟩ := JsonNumber.exists_value?_toBinary64 hq
  obtain rfl := hself hnonneg hlt
  have hcount : (n.toBinary64.truncate 0 greatestNat64).toNat = ⌊r⌋₊ := by
    have hfloor : ⌊r⌋ < 2 ^ 53 := Int.floor_lt.2 (by exact_mod_cast hlt)
    have hfloor_nonneg := Int.floor_nonneg.2 hnonneg
    rw [Binary64.truncate_eq hr, Binary64.integerPart_of_nonneg hnonneg, ← Int.floor_toNat]
    unfold greatestNat64
    omega
  rw [run_lengthArgument_number h, if_pos ((Binary64.le_iff (Binary64.value?_zero _) hr).2 hnonneg),
    hcount]

theorem run_lengthArgument_of_refused {v : Json} (hv : Refused v) {args : List Json}
    (h : PassesLength v args) (default : Nat) (s : KeyStream) :
    (lengthArgument args default).run.run s = .ok (.error (noLength v), s) := by
  cases v with
  | number n =>
    obtain ⟨q, hq, hneg⟩ := hv
    obtain ⟨r, hr, hsign, -⟩ := JsonNumber.exists_value?_toBinary64 hq
    rw [run_lengthArgument_number h, if_neg]
    rw [Binary64.le_iff (Binary64.value?_zero _) hr]
    exact not_le.2 (hsign.1 hneg)
  | object fields =>
    cases h with
    | option => rfl
    | bare h => exact absurd rfl (h fields)
  | null | bool _ | string _ | array _ => cases h <;> rfl

/-! ## The generator -/

section Text

variable (alphabet : List Char) {default count : Nat} {args : List Json} {s : KeyStream}

theorem run_string_of_length (h : (lengthArgument args default).run.run s = .ok (.ok count, s))
    (hcount : count ≤ greatestSize) (now : Calendar.Instant) :
    (string alphabet default now args).run.run s
      = .ok (.ok (.string ((characters alphabet count).run s).1),
        ((characters alphabet count).run s).2) := by
  have hrun : (string alphabet default now args).run.run s
      = match (lengthArgument args default).run.run s with
        | .ok (.ok count, s) => (do
            checkSize 1 count
            return .string (← draw (characters alphabet count)) : Gen Json).run.run s
        | .ok (.error e, s) => .ok (.error e, s)
        | .error halt => .error halt := by
    unfold string
    rw [ExceptT.run_bind, StateT.run_bind]
    rcases (lengthArgument args default).run.run s with halt | ⟨e | count, s⟩ <;> rfl
  rw [hrun, h]
  dsimp only
  rw [checkSize, if_neg (by omega)]
  rfl

theorem run_string_of_error {e : SourceError}
    (h : (lengthArgument args default).run.run s = .ok (.error e, s)) (now : Calendar.Instant) :
    (string alphabet default now args).run.run s = .ok (.error e, s) := by
  unfold string
  rw [ExceptT.run_bind, StateT.run_bind, h]
  rfl

end Text

/-! ## The methods -/

/-- A method whose first argument is the length of its text. -/
structure LengthMethod where
  namespaceName : String
  name : String
  alphabet : List Char
  default : Nat

def lengthMethods : List LengthMethod := [
  ⟨"internet", "password", passwordCharacters, 15⟩,
  ⟨"string", "nanoid", identifierCharacters, 21⟩,
  ⟨"string", "alpha", letters, 1⟩,
  ⟨"string", "alphanumeric", lettersAndDigits, 1⟩,
  ⟨"string", "numeric", digits, 1⟩,
  ⟨"finance", "accountNumber", digits, 8⟩]

namespace LengthMethod

def path (m : LengthMethod) : String :=
  m.namespaceName ++ "." ++ m.name

def directive (m : LengthMethod) (args : List Json) : Directive :=
  ⟨m.namespaceName, some m.name, args⟩

/-- How a directive whose argument is no length is reported. -/
def refusal (m : LengthMethod) (v : Json) : Diagnostic :=
  ⟨.sourceFailure, m.path, "Error calling " ++ m.path ++ ": " ++ (noLength v).message⟩

/-- A text of a method, with so many characters. -/
def Makes (m : LengthMethod) (count : Nat) (v : Json) : Prop :=
  ∃ text, v = .string text ∧ text.toList.length = count ∧ ∀ c ∈ text.toList, c ∈ m.alphabet

/-- What is known of each of the methods; only the length of a password is passed as an option. -/
theorem known {m : LengthMethod} (h : m ∈ lengthMethods) :
    find? m.namespaceName m.name = some (string m.alphabet m.default)
      ∧ m.alphabet ≠ [] ∧ m.default ≤ greatestSize
      ∧ ArgumentShape.ofMethod m.name
        = if m.name = "password" then .length 15 else .positional := by
  simp only [lengthMethods, List.mem_cons, List.not_mem_nil, or_false] at h
  rcases h with rfl | rfl | rfl | rfl | rfl | rfl <;>
    exact ⟨rfl, by decide, by decide, rfl⟩

variable {m : LengthMethod} (hm : m ∈ lengthMethods) (now : Calendar.Instant)
include hm

theorem has_eq (s : KeyStream) :
    ((source now).has m.namespaceName m.name).run s = (true, s) := by
  have hknown : ∀ m ∈ lengthMethods, has m.namespaceName m.name = true := by decide
  change (has m.namespaceName m.name, s) = _
  rw [hknown m hm]

theorem gives_of_run {args : List Json} {s s' : KeyStream} {r : Except SourceError Json}
    (h : (string m.alphabet m.default now args).run.run s = .ok (r, s')) :
    (Call.mk m.namespaceName m.name args).Gives (source now) s r s' := by
  obtain ⟨hfind, -⟩ := known hm
  change (call now m.namespaceName m.name args).run.run s = _
  rw [call, hfind]
  exact h

omit now in
theorem makes_characters (count : Nat) (s : KeyStream) :
    m.Makes count (.string ((characters m.alphabet count).run s).1) := by
  obtain ⟨-, hne, -⟩ := known hm
  exact ⟨_, rfl, characters_spec hne count s⟩

omit now in
theorem passesLength_adapt {a : Json} (rest : List Json)
    (h : m.name = "password" ∨ ∀ fields, a ≠ .object fields) :
    PassesLength a ((ArgumentShape.ofMethod m.name).adapt (a :: rest)) := by
  obtain ⟨-, -, -, hshape⟩ := known hm
  rw [hshape]
  split_ifs with hname
  · exact .option
  · exact .bare (h.resolve_left hname)

omit now in
theorem passedTwice_iff {a : Json} (rest : List Json) :
    PassedTwice m.name (a :: rest) ↔ m.name ≠ "password" := by
  obtain ⟨-, -, -, hshape⟩ := known hm
  rw [PassedTwice, hshape]
  split_ifs with hname <;> simp [hname]

/-- The options of a second call say nothing about a length. -/
theorem gives_asOptions (a : Json) (rest : List Json) (s : KeyStream) :
    (Call.asOptions m.namespaceName m.name (a :: rest)).Gives (source now) s
      (.ok (.string ((characters m.alphabet m.default).run s).1))
      ((characters m.alphabet m.default).run s).2 := by
  obtain ⟨-, -, hdefault, -⟩ := known hm
  refine gives_of_run hm now (run_string_of_length m.alphabet ?_ hdefault now)
  cases rest <;> rfl

omit now in
theorem dated_eq (v : Json) : dated m.name v = v := by
  simp only [lengthMethods, List.mem_cons, List.not_mem_nil, or_false] at hm
  rcases hm with rfl | rfl | rfl | rfl | rfl | rfl <;> rfl

/-! ## The directives -/

theorem resolve_of_value {n : JsonNumber} {q : ℚ} (hq : n.value? = some q) (hnonneg : 0 ≤ q)
    (hlt : q < 2 ^ 53) (rest : List Json) (s : KeyStream) (ds : List Diagnostic) :
    ∃ v s', (resolve (source now) (m.directive (.number n :: rest))).run ⟨s, ds⟩
      = .ok (v, ⟨s', ds⟩) ∧ m.Makes ⌊q⌋₊ v := by
  have hsize : ⌊q⌋₊ ≤ greatestSize := by
    have hfloor : ⌊q⌋₊ < 2 ^ 53 := (Nat.floor_lt hnonneg).2 (by exact_mod_cast hlt)
    unfold greatestSize
    omega
  have hpasses := passesLength_adapt hm (a := .number n) rest
    (.inr fun fields h => by cases h)
  have hgives := gives_of_run hm now (run_string_of_length m.alphabet
    (run_lengthArgument_of_value hq hnonneg hlt hpasses m.default s) hsize now)
  have hasked := Asked.answered hgives
  rw [dated_eq hm] at hasked
  exact ⟨_, _, run_resolve_of_value (.asked (has_eq hm now s) hasked) ds,
    makes_characters hm ⌊q⌋₊ s⟩

/-- A password is refused if its length is. -/
theorem resolve_password_of_refused (hname : m.name = "password") {a : Json} (ha : Refused a)
    (rest : List Json) (s : KeyStream) (ds : List Diagnostic) :
    (resolve (source now) (m.directive (a :: rest))).run ⟨s, ds⟩
      = .ok (.string m.path, ⟨s, ds ++ [m.refusal a]⟩) := by
  have hgives := gives_of_run hm now (run_string_of_error m.alphabet
    (run_lengthArgument_of_refused ha (passesLength_adapt hm rest (.inl hname)) m.default s) now)
  have honce : ¬ PassedTwice m.name (a :: rest) := fun h => (passedTwice_iff hm rest).1 h hname
  exact run_resolve_of_handled (.asked (has_eq hm now s) (.failed hgives honce)) ds

/-- Any other text takes its default length if the length is refused. -/
theorem resolve_of_refused (hname : m.name ≠ "password") {a : Json} (ha : Refused a)
    (hbare : ∀ fields, a ≠ .object fields) (rest : List Json) (s : KeyStream)
    (ds : List Diagnostic) :
    ∃ v s', (resolve (source now) (m.directive (a :: rest))).run ⟨s, ds⟩ = .ok (v, ⟨s', ds⟩)
      ∧ m.Makes m.default v := by
  have hgives := gives_of_run hm now (run_string_of_error m.alphabet
    (run_lengthArgument_of_refused ha (passesLength_adapt hm rest (.inr hbare)) m.default s) now)
  have hasked := Asked.retried hgives ((passedTwice_iff hm rest).2 hname)
    (gives_asOptions hm now a rest s)
  exact ⟨_, _, run_resolve_of_value (.asked (has_eq hm now s) hasked) ds,
    makes_characters hm m.default s⟩

/-- A method that is called twice is never reported: the second call does not fail. -/
theorem diagnostics_eq_of_resolve (hname : m.name ≠ "password") {a : Json} {rest : List Json}
    {s : KeyStream} {ds : List Diagnostic} {v : Json} {l : Ledger KeyStream}
    (h : (resolve (source now) (m.directive (a :: rest))).run ⟨s, ds⟩ = .ok (v, l)) :
    l.diagnostics = ds := by
  obtain ⟨made, fate, s', hhandled, -, rfl⟩ := run_resolve_eq_ok_iff.1 h
  rcases hhandled.unknown_or_asked with ⟨hhas, -⟩ | ⟨s₁, r, -, hasked, rfl⟩
  · rw [has_eq hm] at hhas
    cases hhas
  · cases hasked with
    | answered hcall => exact List.append_nil ds
    | failed hcall honce => exact absurd ((passedTwice_iff hm rest).2 hname) honce
    | retried hcall htwice hagain =>
      have hsecond := Eq.trans (Eq.symm hagain) (gives_asOptions hm now a rest _)
      cases hsecond
      exact List.append_nil ds

end LengthMethod

open LengthMethod in
/-- A length from nought to below 2^53 is kept: so many characters come out, all from the method's
alphabet. Where the first argument is no length, the directive is given its own name and reported
exactly if the method is the one for passwords. Of the others it gives a text of their default
length, and they are never reported. -/
theorem resolve_length_iff {m : LengthMethod} (hm : m ∈ lengthMethods) (rest : List Json) :
    (∀ (n : JsonNumber) (q : ℚ), n.value? = some q → 0 ≤ q → q < 2 ^ 53 →
      ∀ now s ds, ∃ v s', (resolve (source now) (m.directive (.number n :: rest))).run ⟨s, ds⟩
        = .ok (v, ⟨s', ds⟩) ∧ m.Makes ⌊q⌋₊ v)
    ∧ (∀ a, Refused a →
        ((∀ now s ds, (resolve (source now) (m.directive (a :: rest))).run ⟨s, ds⟩
            = .ok (.string m.path, ⟨s, ds ++ [m.refusal a]⟩))
          ↔ m.name = "password"))
    ∧ (m.name ≠ "password" → ∀ a, Refused a → (∀ fields, a ≠ .object fields) →
        ∀ now s ds, ∃ v s', (resolve (source now) (m.directive (a :: rest))).run ⟨s, ds⟩
          = .ok (v, ⟨s', ds⟩) ∧ m.Makes m.default v)
    ∧ (m.name ≠ "password" → ∀ a now s ds v l,
        (resolve (source now) (m.directive (a :: rest))).run ⟨s, ds⟩ = .ok (v, l) →
          l.diagnostics = ds) := by
  refine ⟨fun n q hq hnonneg hlt now => resolve_of_value hm now hq hnonneg hlt rest,
    fun a ha => ⟨fun h => ?_, fun hname now => resolve_password_of_refused hm now hname ha rest⟩,
    fun hname a ha hbare now => resolve_of_refused hm now hname ha hbare rest,
    fun hname a now s ds v l h => diagnostics_eq_of_resolve hm now hname h⟩
  by_contra hname
  have hnone := diagnostics_eq_of_resolve hm ⟨0⟩ hname (h ⟨0⟩ (.ofSeed 0) [])
  cases hnone

theorem resolve_length_iff_alpha :
    LengthMethod.mk "string" "alpha" letters 1 ∈ lengthMethods
      ∧ (JsonNumber.integer 12).value? = some 12 ∧ Refused (.ofInt (-1))
      ∧ (∃ v s', (resolve (source ⟨0⟩) ⟨"string", some "alpha", [.ofInt 12]⟩).run ⟨.ofSeed 1, []⟩
          = .ok (v, ⟨s', []⟩) ∧ LengthMethod.Makes ⟨"string", "alpha", letters, 1⟩ 12 v)
      ∧ (resolve (source ⟨0⟩) ⟨"internet", some "password", [.ofInt (-1)]⟩).run ⟨.ofSeed 1, []⟩
          = .ok (.string "internet.password", ⟨.ofSeed 1, [LengthMethod.refusal
            ⟨"internet", "password", passwordCharacters, 15⟩ (.ofInt (-1))]⟩) := by
  have halpha : LengthMethod.mk "string" "alpha" letters 1 ∈ lengthMethods := by
    simp [lengthMethods]
  have hpassword : LengthMethod.mk "internet" "password" passwordCharacters 15 ∈ lengthMethods := by
    simp [lengthMethods]
  have hvalue : (JsonNumber.integer 12).value? = some 12 := rfl
  have hrefused : Refused (.ofInt (-1)) := ⟨-1, rfl, by norm_num⟩
  obtain ⟨hkept, -⟩ := resolve_length_iff halpha []
  obtain ⟨-, hreported, -⟩ := resolve_length_iff hpassword []
  have hfloor : ⌊(12 : ℚ)⌋₊ = 12 := Nat.floor_ofNat 12
  refine ⟨halpha, hvalue, hrefused, ?_, (hreported _ hrefused).2 rfl ⟨0⟩ (.ofSeed 1) []⟩
  exact hfloor ▸ hkept (.integer 12) 12 hvalue (by norm_num) (by norm_num) ⟨0⟩ (.ofSeed 1) []

/-- A negative length gives one letter, and nothing is reported. -/
theorem resolve_length_negative : ∃ v s',
    (resolve (source ⟨0⟩) ⟨"string", some "alpha", [.ofInt (-1)]⟩).run ⟨.ofSeed 1, []⟩
      = .ok (v, ⟨s', []⟩) ∧ LengthMethod.Makes ⟨"string", "alpha", letters, 1⟩ 1 v :=
  LengthMethod.resolve_of_refused (m := ⟨"string", "alpha", letters, 1⟩) (by simp [lengthMethods])
    ⟨0⟩ (by decide) (a := .ofInt (-1)) ⟨-1, rfl, by norm_num⟩ (fun _ h => by cases h) []
    (.ofSeed 1) []

end Generator

end JsonTemplate
