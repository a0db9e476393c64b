import JsonTemplate.Generator.Time
import JsonTemplate.Proofs.Overflow
import JsonTemplate.Proofs.Sampling

/-!
# Bounds of what is sampled

Integers, times and births are sampled between bounds that are read from the arguments as doubles.
Bounds that are crossed are refused first, and what is left of them fits into 64 bits, so that the
generators of these never stop all.
-/

namespace JsonTemplate

open Width

theorem Binary64.truncate_mem {lo hi : Int} (hlo : lo ≤ 0) (hhi : 0 ≤ hi) (x : Binary64) :
    lo ≤ x.truncate lo hi ∧ x.truncate lo hi ≤ hi := by
  cases x with
  | nan => exact ⟨hlo, hhi⟩
  | infinity s => cases s <;> simp [truncate] <;> omega
  | finite s m e =>
    rw [truncate]
    omega

theorem Binary64.truncate_mono {x y : Binary64} {a b : Int} (hx : x.value? = some (a : ℚ))
    (hy : y.value? = some (b : ℚ)) (h : a ≤ b) (lo hi : Int) :
    x.truncate lo hi ≤ y.truncate lo hi := by
  rw [truncate_eq hx, truncate_eq hy, integerPart_intCast, integerPart_intCast]
  omega

namespace Generator

open KeyStream

/-- The numbers that a generator may take from its arguments: the first argument, or an option
there. -/
inductive Offers : List Json → JsonNumber → Prop
  | bare (n : JsonNumber) (rest : List Json) : Offers (.number n :: rest) n
  | option {fields : Json.Fields} {key : String} {n : JsonNumber} (rest : List Json)
    (h : Json.Fields.get? key fields = some (.number n)) : Offers (.object fields :: rest) n

/-- The numbers that a generator may take are finite, as all numbers are that JSON has. -/
def FiniteNumbers (args : List Json) : Prop :=
  ∀ n, Offers args n → ∃ q, n.toBinary64.Denotes q

theorem FiniteNumbers.numberOption {fields : Json.Fields} {rest : List Json}
    (h : FiniteNumbers (.object fields :: rest)) (key : String) {default : Binary64} {q : ℚ}
    (hdefault : default.Denotes q) : ∃ r, (numberOption fields key default).Denotes r := by
  unfold Generator.numberOption
  cases hget : Json.Fields.get? key fields with
  | none => exact ⟨q, hdefault⟩
  | some v =>
    cases v with
    | number n => exact h n (.option rest hget)
    | null | bool _ | string _ | array _ | object _ => exact ⟨q, hdefault⟩

section Sound

variable {reason : Prop}

theorem soundUnless_options (args : List Json) : SoundUnless reason (options args) := by
  unfold options
  split
  · exact .pure _
  · exact .pure _
  · exact .invalid _

/-! ## Integers -/

theorem soundUnless_intBounds (args : List Json) : SoundUnless reason (intBounds args) := by
  unfold intBounds
  split
  · exact .pure _
  · exact .pure _
  · exact .pure _
  · exact .invalid _

theorem denotes_intBounds {args : List Json} (h : FiniteNumbers args) {s s' : KeyStream}
    {min max : Binary64} (hrun : (intBounds args).run.run s = .ok (.ok (min, max), s')) :
    (∃ q, min.Denotes q) ∧ ∃ r, max.Denotes r := by
  have hleast : (Binary64.ofInt 0).Denotes (0 : Int) := Binary64.denotes_ofInt (by decide)
  have hgreatest : greatestSafeInteger.Denotes ((Binary64.fullMantissa : Int) : ℚ) :=
    Binary64.denotes_ofInt (n := Binary64.fullMantissa) (by decide)
  unfold intBounds at hrun
  split at hrun
  · cases hrun
    exact ⟨⟨_, hleast⟩, _, hgreatest⟩
  · cases hrun
    exact ⟨h.numberOption "min" hleast, h.numberOption "max" hgreatest⟩
  · rename_i n rest
    cases hrun
    exact ⟨⟨_, hleast⟩, h n (.bare n rest)⟩
  · cases hrun

theorem sound_intBetween {low high : Int} (hle : low ≤ high) (hlow : leastInt64 ≤ low)
    (hhigh : high ≤ greatestInt64) : Sound (intBetween low high) := by
  refine .intBetween hle ?_
  have hcount : wordCount = 2 ^ 64 := by decide
  unfold leastInt64 at hlow
  unfold greatestInt64 at hhigh
  omega

theorem toInt64_mem (x : Binary64) : leastInt64 ≤ toInt64 x ∧ toInt64 x ≤ greatestInt64 :=
  Binary64.truncate_mem (by decide) (by decide) x

theorem soundUnless_int {args : List Json} (h : FiniteNumbers args) (now : Calendar.Instant) :
    SoundUnless reason (int now args) := by
  refine (soundUnless_intBounds args).bind fun s bounds s' hrun => ?_
  obtain ⟨min, max⟩ := bounds
  obtain ⟨⟨q, hmin⟩, r, hmax⟩ := denotes_intBounds h hrun
  dsimp only
  split
  · exact .invalid _
  · rename_i hcrossed
    have hle : ⌈q⌉ ≤ ⌊r⌋ := by
      rw [Binary64.lt_iff hmax.floor.value? hmin.ceil.value?, not_lt] at hcrossed
      exact_mod_cast hcrossed
    refine (SoundUnless.draw (sound_intBetween ?_ (toInt64_mem _).1 (toInt64_mem _).2)).map _
    exact Binary64.truncate_mono hmin.ceil.value? hmax.floor.value? hle _ _

theorem refuses_int (now : Calendar.Instant) (args : List Json) : Refuses (int now args) := by
  have hbounds : SoundUnless False (intBounds args) := soundUnless_intBounds args
  refine hbounds.refuses.bind fun bounds => ?_
  dsimp only
  split
  · exact .invalid _
  · exact (Refuses.draw _).bind fun _ => .pure _

/-! ## Times -/

theorem soundUnless_dayBound (args : List Json) (default : Binary64) :
    SoundUnless reason (dayBound args default) := by
  unfold dayBound
  split
  · exact .pure _
  · exact .pure _
  · exact .pure _
  · exact .invalid _

theorem soundUnless_relativeTime (defaultDays : Int) (forward : Bool) (now : Calendar.Instant)
    (args : List Json) : SoundUnless reason (relativeTime defaultDays forward now args) := by
  refine (soundUnless_dayBound args _).bind fun s days s' _ => ?_
  dsimp only
  split
  · exact .invalid _
  · have hspan := toInt64_mem (days * .ofInt daySeconds)
    unfold greatestInt64 at hspan
    refine (SoundUnless.draw (sound_intBetween (by omega) (by decide) ?_)).bind fun _ _ _ _ => ?_
    · unfold greatestInt64
      omega
    · split
      · exact .pure _
      · exact .invalid _

theorem wholeBound_mem (low high : Int) (fields : Option Json.Fields) (key : String) (default : Int)
    (hlow : low ≤ 0) (hhigh : 0 ≤ high) :
    low ≤ wholeBound fields key default low high ∧ wholeBound fields key default low high ≤ high :=
  Binary64.truncate_mem hlow hhigh _

theorem soundUnless_birthByAge (now : Calendar.Instant) (fields : Option Json.Fields) :
    SoundUnless reason (birthByAge now fields) := by
  have hmin := wholeBound_mem leastInt64 greatestInt64 fields "min" 18
  have hmax := wholeBound_mem leastInt64 greatestInt64 fields "max" 80
  unfold birthByAge
  dsimp only
  split
  · exact .invalid _
  · rename_i hcrossed
    rw [not_or, not_lt, not_lt] at hcrossed
    refine (SoundUnless.draw (sound_intBetween hcrossed.2 (hmin (by decide) (by decide)).1
      (hmax (by decide) (by decide)).2)).bind fun _ _ _ _ => ?_
    refine (SoundUnless.draw (.intBetween (by decide) (by decide))).bind fun _ _ _ _ => ?_
    split
    · exact .pure _
    · exact .invalid _

theorem soundUnless_birthByYear (fields : Option Json.Fields) :
    SoundUnless reason (birthByYear fields) := by
  have hmin := wholeBound_mem leastInt32 greatestInt32 fields "min" 1950
  have hmax := wholeBound_mem leastInt32 greatestInt32 fields "max" 2005
  unfold birthByYear
  dsimp only
  split
  · exact .invalid _
  · rename_i hcrossed
    refine (SoundUnless.draw (sound_intBetween (not_lt.1 hcrossed)
      (le_trans (by decide) (hmin (by decide) (by decide)).1)
      ((hmax (by decide) (by decide)).2.trans (by decide)))).bind fun _ _ _ _ => ?_
    refine (SoundUnless.draw (.intBetween (by decide) (by decide))).bind fun _ _ _ _ => ?_
    split
    · exact .pure _
    · exact .invalid _

theorem soundUnless_birthdate (now : Calendar.Instant) (args : List Json) :
    SoundUnless reason (birthdate now args) := by
  refine (soundUnless_options args).bind fun _ fields _ _ => ?_
  dsimp only
  split
  · exact soundUnless_birthByAge now fields
  · split
    · exact soundUnless_birthByYear fields
    · exact .invalid _

theorem soundUnless_anytime (now : Calendar.Instant) (args : List Json) :
    SoundUnless reason (anytime now args) :=
  (SoundUnless.draw .coin).bind fun _ forward _ _ => soundUnless_relativeTime 365 forward now []

end Sound

end Generator

end JsonTemplate
