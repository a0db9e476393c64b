import JsonTemplate.Proofs.Lengths
import JsonTemplate.Proofs.Profiles
import JsonTemplate.Proofs.Ranges

/-!
# Limits of the generators

Three kinds of generators stop all for some arguments: texts that no memory can hold, decimals whose
range is too wide, and amounts whose range is too wide in cents (`Limit`). Each generator of the
catalogue stops exactly if its limit is exceeded (`within_catalogue`); most have none.
-/

namespace JsonTemplate.Generator

open KeyStream Width

/-- What a generator cannot do. -/
inductive Limit
  | unlimited
  /-- A text whose members take so many bytes. -/
  | size (bytes : Nat)
  /-- A decimal, with the default bounds. -/
  | width (low high : Int)
  /-- An amount of money, with the default of the lower bound. -/
  | cents (low : Int)

/-- The arguments ask for what a generator cannot do. -/
def Limit.Exceeded : Limit → List Json → Prop
  | .unlimited, _ => False
  | .size bytes, args => ∃ n q, lengthNumber? args = some n ∧ n.toBinary64.Denotes q
      ∧ greatestSize < bytes * ⌊q⌋₊
  | .width low high, args => ∃ min max q r, Asks args low high min max q r ∧ TooWide q r
  | .cents low, args => ∃ min max q r, Asks args low 1000 min max q r ∧ TooWideInCents q r

/-- The generators that have a limit. -/
def limits : List ((String × String) × Limit) := [
  (("internet", "password"), .size 1),
  (("number", "float"), .width 0 1),
  (("string", "nanoid"), .size 1),
  (("string", "alpha"), .size 1),
  (("string", "alphanumeric"), .size 1),
  (("string", "numeric"), .size 1),
  (("commerce", "price"), .cents 1),
  (("location", "latitude"), .width (-90) 90),
  (("location", "longitude"), .width (-180) 180),
  (("lorem", "words"), .size wordSize),
  (("lorem", "sentence"), .size wordSize),
  (("lorem", "paragraph"), .size sentenceSize),
  (("lorem", "slug"), .size wordSize),
  (("finance", "amount"), .cents 0),
  (("finance", "accountNumber"), .size 1)]

def limit (namespaceName method : String) : Limit :=
  (limits.lookup (namespaceName, method)).getD .unlimited

/-- A generator stops all exactly if its limit is exceeded, its samples are taken from something,
and it fails for an argument only. Bounds that exceed the limit as options are refused if they are
not passed as options. -/
structure Within (l : Limit) (g : Method) : Prop where
  sound : ∀ now args, FiniteNumbers args → SoundUnless (l.Exceeded args) (g now args)
  stops : ∀ now args s, l.Exceeded args → ∃ halt, (g now args).run.run s = .error halt
  refuses : ∀ now args, Refuses (g now args)
  bare : ∀ now args s, givenOptions? args = none → l.Exceeded [ArgumentShape.minAndMax args] →
    ∃ e, (g now args).run.run s = .ok (.error e, s)

/-! ## Texts -/

section Text

variable {reason : Prop} {args : List Json} {α : Type}

/-- Every way through the argument ends in a length or in a refusal. -/
theorem soundUnless_lengthArgument (args : List Json) (default : Nat) :
    SoundUnless reason (lengthArgument args default) := by
  unfold lengthArgument
  dsimp only
  repeat' split
  all_goals first
    | exact .pure _
    | exact .invalid _

theorem offers_of_lengthNumber? {n : JsonNumber} (h : lengthNumber? args = some n) :
    Offers args n := by
  unfold lengthNumber? at h
  split at h
  · cases h
    exact .bare n _
  · split at h
    · cases h
      exact .option _ ‹_›
    · cases h
  · cases h

/-- The options of a second call have no length. -/
theorem not_exceeded_minAndMax (bytes : Nat) (args : List Json) :
    ¬ (Limit.size bytes).Exceeded [ArgumentShape.minAndMax args] := by
  have hnone : lengthNumber? [ArgumentShape.minAndMax args] = none := by
    rcases args with _ | ⟨a, _ | ⟨b, rest⟩⟩ <;> rfl
  rintro ⟨n, q, hn, -⟩
  rw [hnone] at hn
  cases hn

theorem toNat_truncate {x : Binary64} {q : ℚ} (hx : x.Denotes q)
    (hnonneg : (Binary64.zero false).le x = true) :
    (x.truncate 0 greatestNat64).toNat = min greatestNat64 ⌊q⌋₊ := by
  rw [Binary64.le_iff (Binary64.value?_zero _) hx.value?] at hnonneg
  have hfloor := Int.floor_nonneg.2 hnonneg
  rw [Binary64.truncate_eq hx.value?, Binary64.integerPart_of_nonneg hnonneg, ← Int.floor_toNat]
  omega

/-- A generator of a text with as many members as its argument says. -/
def sized (bytes default : Nat) (args : List Json) (make : Nat → Gen α) : Gen α := do
  let count ← lengthArgument args default
  checkSize bytes count
  make count

theorem soundUnless_sized {bytes default : Nat} (hdefault : bytes * default ≤ greatestSize)
    (hfinite : FiniteNumbers args) (hreason : (Limit.size bytes).Exceeded args → reason)
    {make : Nat → Gen α} (hmake : ∀ count, SoundUnless reason (make count)) :
    SoundUnless reason (sized bytes default args make) := by
  refine (soundUnless_lengthArgument args default).bind fun s count s' hrun => ?_
  refine (SoundUnless.checkSize fun hsize => hreason ?_).bind fun _ _ _ _ => hmake count
  cases hn : lengthNumber? args with
  | none =>
    rcases run_lengthArgument_of_none hn default s with h | ⟨v, h⟩
    · rw [h] at hrun
      cases hrun
      omega
    · rw [h] at hrun
      cases hrun
  | some n =>
    rw [run_lengthArgument_of_some hn] at hrun
    split at hrun
    · rename_i hnonneg
      obtain ⟨q, hq⟩ := hfinite n (offers_of_lengthNumber? hn)
      cases hrun
      rw [toNat_truncate hq hnonneg] at hsize
      exact ⟨n, q, hn, hq, hsize.trans_le (Nat.mul_le_mul_left _ (Nat.min_le_right _ _))⟩
    · cases hrun

theorem refuses_sized (bytes default : Nat) (args : List Json) {make : Nat → Gen α}
    (hmake : ∀ count, Refuses (make count)) : Refuses (sized bytes default args make) := by
  have hlength : SoundUnless False (lengthArgument args default) :=
    soundUnless_lengthArgument args default
  exact hlength.refuses.bind fun count => (Refuses.checkSize bytes count).bind fun _ => hmake count

theorem run_sized_of_exceeded {bytes : Nat} (hbytes : 0 < bytes)
    (h : (Limit.size bytes).Exceeded args) (default : Nat) (make : Nat → Gen α) (s : KeyStream) :
    (sized bytes default args make).run.run s = .error .endlessText := by
  obtain ⟨n, q, hn, hq, hsize⟩ := h
  have hnonneg : (Binary64.zero false).le n.toBinary64 = true := by
    rw [Binary64.le_iff (Binary64.value?_zero _) hq.value?]
    by_contra hneg
    rw [Nat.floor_of_nonpos (not_le.1 hneg).le, Nat.mul_zero] at hsize
    omega
  have hcount : greatestSize < bytes * min greatestNat64 ⌊q⌋₊ := by
    rcases Nat.le_total ⌊q⌋₊ greatestNat64 with hle | hle
    · rwa [Nat.min_eq_right hle]
    · rw [Nat.min_eq_left hle]
      exact lt_of_lt_of_le (by decide) (Nat.le_mul_of_pos_left _ hbytes)
  rw [sized, run_bind, run_lengthArgument_of_some hn, if_pos hnonneg, toNat_truncate hq hnonneg]
  dsimp only
  rw [run_bind, run_checkSize, if_pos hcount]

end Text

/-! ## The generators and their limits -/

namespace Within

theorem unlimited {g : Method} (h : ∀ now args, SoundUnless False (g now args)) :
    Within .unlimited g where
  sound now args _ := h now args
  stops _ _ _ hexceeded := hexceeded.elim
  refuses now args := (h now args).refuses
  bare _ _ _ _ hexceeded := hexceeded.elim

theorem textual {d : StateM KeyStream String} (h : Sound d) : Within .unlimited (textual d) :=
  unlimited fun now args => .textual h now args

theorem word {members : List String} (h : members ≠ []) : Within .unlimited (word members) :=
  textual (.pickText h)

theorem portNumber : Within .unlimited portNumber :=
  unlimited fun _ _ => (SoundUnless.draw (.intBetween (by decide) (by decide))).map _

theorem boolean : Within .unlimited boolean :=
  unlimited fun _ _ => (SoundUnless.draw .coin).map _

theorem state : Within .unlimited state := by
  refine unlimited fun _ args => (soundUnless_options args).bind fun _ _ _ _ => ?_
  exact (SoundUnless.draw (.pick (by decide) _)).bind fun _ _ _ _ => .pure _

theorem int : Within .unlimited int where
  sound now _ h := soundUnless_int h now
  stops _ _ _ hexceeded := hexceeded.elim
  refuses now args := refuses_int now args
  bare _ _ _ _ hexceeded := hexceeded.elim

theorem relativeTime (defaultDays : Int) (forward : Bool) :
    Within .unlimited (relativeTime defaultDays forward) :=
  unlimited fun now args => soundUnless_relativeTime defaultDays forward now args

theorem birthdate : Within .unlimited birthdate :=
  unlimited fun now args => soundUnless_birthdate now args

theorem anytime : Within .unlimited anytime :=
  unlimited fun now args => soundUnless_anytime now args

/-- Texts of so many members, each drawn from something. -/
theorem sized {bytes default : Nat} (hbytes : 0 < bytes) (hdefault : bytes * default ≤ greatestSize)
    {make : Nat → StateM KeyStream String} (hmake : ∀ count, Sound (make count)) :
    Within (.size bytes) fun _ args => sized bytes default args fun count => do
      return .string (← draw (make count)) where
  sound _ _ h := soundUnless_sized hdefault h id fun count => (SoundUnless.draw (hmake count)).map _
  stops _ _ s h := ⟨_, run_sized_of_exceeded hbytes h default _ s⟩
  refuses _ args := refuses_sized bytes default args fun count =>
    (Refuses.draw (make count)).bind fun _ => .pure _
  bare _ args _ _ hexceeded := (not_exceeded_minAndMax bytes args hexceeded).elim

theorem string {alphabet : List Char} (h : alphabet ≠ []) {default : Nat}
    (hdefault : default ≤ greatestSize) : Within (.size 1) (string alphabet default) :=
  sized one_pos (by omega) fun count => .characters h count

theorem wordList (separator : String) : Within (.size wordSize) (wordList separator) :=
  sized (by decide) (by decide) fun count => .words separator count

theorem paragraph : Within (.size sentenceSize) paragraph :=
  sized (by decide) (by decide) fun count => (Sound.anySentence.drawList count).map _

/-- Without arguments a sentence has a length of its own. -/
theorem sentence : Within (.size wordSize) sentence := by
  have hsized : Within (.size wordSize) fun _ args =>
      Generator.sized wordSize 0 args fun count => do return .string (← draw (sentenceOf count)) :=
    sized (by decide) (by decide) Sound.sentenceOf
  constructor
  · intro now args h
    cases args with
    | nil => exact .textual .anySentence now []
    | cons v rest => exact hsized.sound now (v :: rest) h
  · intro now args s h
    cases args with
    | nil =>
      obtain ⟨n, q, hn, -⟩ := h
      cases hn
    | cons v rest => exact hsized.stops now (v :: rest) s h
  · intro now args
    cases args with
    | nil => exact (Within.textual .anySentence).refuses now []
    | cons v rest => exact hsized.refuses now (v :: rest)
  · exact fun _ args _ _ hexceeded => (not_exceeded_minAndMax _ args hexceeded).elim

theorem decimal (places : Nat) {low high : Int} (hlow : low.natAbs ≤ 2 ^ 53)
    (hhigh : high.natAbs ≤ 2 ^ 53) :
    Within (.width low high) fun _ args => decimal places low high args where
  sound _ _ h := soundUnless_decimal places h hlow hhigh fun min max q r hasks hwide =>
    ⟨min, max, q, r, hasks, hwide⟩
  stops _ _ s h := by
    obtain ⟨min, max, q, r, hasks, hwide⟩ := h
    exact ⟨_, run_decimal_of_tooWide places hasks hwide s⟩
  refuses _ args := refuses_decimal places low high args
  bare _ _ s hnone _ := by
    obtain ⟨e, he⟩ := run_floatBounds_of_none hnone (.ofInt low) (.ofInt high) s
    exact ⟨e, by rw [Generator.decimal, run_bind, he]⟩

theorem float : Within (.width 0 1) float :=
  decimal 2 (by decide) (by decide)

theorem coordinate {bound : Int} (h : bound.natAbs ≤ 2 ^ 53) :
    Within (.width (-bound) bound) (coordinate bound) :=
  decimal 4 (by rwa [Int.natAbs_neg]) h

theorem amount {low : Int} (h : low.natAbs ≤ 2 ^ 53) : Within (.cents low) (amount low) where
  sound now _ hfinite := soundUnless_amount hfinite h
    (fun min max q r hasks hwide => ⟨min, max, q, r, hasks, hwide⟩) now
  stops now _ s hexceeded := by
    obtain ⟨min, max, q, r, hasks, hwide⟩ := hexceeded
    exact ⟨_, run_amount_of_tooWide hasks hwide now s⟩
  refuses now args := refuses_amount low now args
  bare _ _ s hnone _ := by
    obtain ⟨e, he⟩ := run_floatBounds_of_none hnone (.ofInt low) (.ofInt 1000) s
    exact ⟨e, by rw [Generator.amount, run_bind, he]⟩

end Within

theorem within_catalogue : ∀ e ∈ catalogue, ∀ m ∈ e.2, Within (limit e.1 m.1) m.2 := by
  simp only [catalogue, List.forall_mem_cons, List.not_mem_nil, false_imp_iff, implies_true,
    and_true]
  exact ⟨
    -- person
    ⟨.word (by decide), .word (by decide), .word (by decide), .textual Sound.fullName,
      .word (by decide), .word (by decide), .word (by decide)⟩,
    -- internet
    ⟨.textual Sound.email, .textual Sound.userName, .textual Sound.userName,
      .textual Sound.domainWord, .textual Sound.domainName, .word (by decide), .textual Sound.url,
      .textual Sound.ipv4, .textual Sound.ipv4, .textual (Sound.hexGroups 8 4),
      .textual (Sound.hexGroups 6 2), .portNumber, .string (by decide) (by decide)⟩,
    -- number
    ⟨.int, .float⟩,
    -- string
    ⟨.textual Sound.uuid, .string (by decide) (by decide), .string (by decide) (by decide),
      .string (by decide) (by decide), .string (by decide) (by decide)⟩,
    -- datatype
    .boolean,
    -- commerce
    ⟨.amount (by decide), .textual Sound.productName, .word (by decide), .word (by decide),
      .word (by decide), .word (by decide), .textual Sound.productDescription⟩,
    -- location
    ⟨.textual Sound.streetAddress, .textual Sound.street,
      .textual (.natBetween (by decide) (by decide)), .word (by decide), .state,
      .textual (.characters (by decide) 5), .textual Sound.country, .textual Sound.countryCode,
      .coordinate (by decide), .coordinate (by decide)⟩,
    -- date
    ⟨.relativeTime 1 false, .relativeTime 1 true, .relativeTime 365 false, .relativeTime 365 true,
      .birthdate, .anytime, .word (by decide), .word (by decide)⟩,
    -- lorem
    ⟨.word (by decide), .wordList " ", .sentence, .paragraph, .wordList "-"⟩,
    -- phone
    .textual Sound.phoneNumber,
    -- company
    ⟨.textual Sound.companyName, .textual Sound.catchPhrase⟩,
    -- color
    ⟨.word (by decide), .textual Sound.rgb⟩,
    -- finance
    ⟨.amount (by decide), .string (by decide) (by decide), .word (by decide)⟩⟩

end JsonTemplate.Generator
