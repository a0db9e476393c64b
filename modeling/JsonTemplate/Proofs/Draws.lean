import JsonTemplate.Generator.Basic
import Mathlib.Data.List.GetD
import Mathlib.Tactic.Linarith
import Mathlib.Tactic.SplitIfs

/-!
# What is drawn

The integers that are drawn from a range are those of the range: no other one comes out, and each
one does for some words (`intBetween_mem`, `exists_intBetween_eq`). A text that is drawn has as many
characters as were asked for, all from its alphabet (`characters_spec`).
-/

namespace JsonTemplate

open Width

namespace KeyStream

/-! ## Words -/

/-- The halves of a double word, the low one first. -/
def halves (v : UInt64) : List UInt32 :=
  [v.toUInt32, (v >>> 32).toUInt32]

theorem join_halves (v : UInt64) :
    v.toUInt32.toUInt64 ||| ((v >>> 32).toUInt32.toUInt64 <<< 32) = v := by
  have hv := v.toNat_lt
  have hshift : (32 : UInt64).toNat % 64 = 32 := rfl
  apply UInt64.toNat_inj.1
  simp only [UInt64.toNat_or, UInt64.toNat_shiftLeft, UInt32.toNat_toUInt64, UInt64.toNat_toUInt32,
    UInt64.toNat_shiftRight]
  rw [hshift, Nat.shiftRight_eq_div_pow, Nat.mod_eq_of_lt (a := v.toNat / 2 ^ 32) (by omega),
    Nat.mod_eq_of_lt (a := (v.toNat / 2 ^ 32) <<< 32) (by rw [Nat.shiftLeft_eq]; omega),
    Nat.or_comm, ← Nat.shiftLeft_add_eq_or_of_lt (Nat.mod_lt _ (by decide)), Nat.shiftLeft_eq]
  omega

theorem run_nextDoubleWord_halves (t : KeyStream) (v : UInt64) :
    nextDoubleWord.run { t with pending := halves v } = (v, { t with pending := [] }) := by
  change (v.toUInt32.toUInt64 ||| ((v >>> 32).toUInt32.toUInt64 <<< 32),
    { t with pending := [] }) = _
  rw [join_halves]

/-! ## Integers of a range -/

theorem le_acceptedLow {bound r : Nat} (h : r < bound) : r ≤ acceptedLow bound := by
  have hshift : bound ≤ bound <<< (63 - bound.log2) := by
    rw [Nat.shiftLeft_eq]
    exact Nat.le_mul_of_pos_right _ (by positivity)
  unfold acceptedLow
  omega

theorem run_belowAttempts_succ (bound n : Nat) (s : KeyStream) :
    (belowAttempts bound (n + 1)).run s
      = if (nextDoubleWord.run s).1.toNat * bound % wordCount ≤ acceptedLow bound then
          ((nextDoubleWord.run s).1.toNat * bound / wordCount, (nextDoubleWord.run s).2)
        else (belowAttempts bound n).run (nextDoubleWord.run s).2 := by
  rw [belowAttempts, StateT.run_bind]
  dsimp only [bind]
  split <;> rfl

/-- The least word that comes to a number, which is never rejected. -/
theorem exists_word {bound i : Nat} (hi : i < bound) (hbound : bound < wordCount) :
    ∃ v : UInt64, v.toNat * bound / wordCount = i
      ∧ v.toNat * bound % wordCount ≤ acceptedLow bound := by
  obtain ⟨w, hw⟩ : ∃ w, w = (i * wordCount + (bound - 1)) / bound := ⟨_, rfl⟩
  have hdiv := Nat.div_add_mod (i * wordCount + (bound - 1)) bound
  have hmod := Nat.mod_lt (i * wordCount + (bound - 1)) (by omega : 0 < bound)
  rw [← hw, mul_comm bound w] at hdiv
  obtain ⟨r, hr⟩ : ∃ r, w * bound = i * wordCount + r := ⟨w * bound - i * wordCount, by omega⟩
  have hsmall : r < bound := by omega
  have hword : w < wordCount := by
    have hle : i * wordCount ≤ (bound - 1) * wordCount := Nat.mul_le_mul_right _ (by omega)
    have hsucc : (bound - 1) * wordCount + wordCount = bound * wordCount := by
      rw [← Nat.succ_mul, Nat.succ_eq_add_one, Nat.sub_add_cancel (by omega)]
    refine Nat.lt_of_mul_lt_mul_right (a := bound) ?_
    rw [mul_comm wordCount bound]
    omega
  have hnat : (UInt64.ofNat w).toNat = w := UInt64.toNat_ofNat_of_lt hword
  refine ⟨.ofNat w, ?_, ?_⟩
  · rw [hnat, hr, Nat.add_comm, Nat.add_mul_div_right _ _ (by decide),
      Nat.div_eq_of_lt (hsmall.trans hbound), zero_add]
  · rw [hnat, hr, Nat.add_comm, Nat.add_mul_mod_self_right, Nat.mod_eq_of_lt (hsmall.trans hbound)]
    exact le_acceptedLow hsmall

theorem exists_below_eq {bound i : Nat} (hi : i < bound) (hbound : bound < wordCount)
    (t : KeyStream) : ∃ words, ((below bound).run { t with pending := words }).1 = i := by
  obtain ⟨v, hv, haccepted⟩ := exists_word hi hbound
  refine ⟨halves v, ?_⟩
  rw [below, run_belowAttempts_succ, run_nextDoubleWord_halves, if_pos haccepted]
  exact hv

theorem intBetween_mem {low high : Int} (hle : low ≤ high)
    (hsize : (high - low + 1).toNat ≤ wordCount) (s : KeyStream) :
    low ≤ ((intBetween low high).run s).1 ∧ ((intBetween low high).run s).1 ≤ high := by
  have hcount : wordCount = 2 ^ 64 := by decide
  rw [hcount] at hsize
  unfold intBetween
  dsimp only
  split_ifs with hfull
  · rw [hcount] at hfull
    change low ≤ low + (((nextDoubleWord.run s).1.toNat + wordCount / 2) % wordCount : Nat)
      ∧ low + (((nextDoubleWord.run s).1.toNat + wordCount / 2) % wordCount : Nat) ≤ high
    rw [hcount]
    omega
  · have hlt := below_lt (by omega : 0 < (high - low + 1).toNat) s
    change low ≤ low + (((below (high - low + 1).toNat).run s).1 : Nat)
      ∧ low + (((below (high - low + 1).toNat).run s).1 : Nat) ≤ high
    omega

theorem exists_intBetween_eq {low high n : Int} (hlow : low ≤ n) (hhigh : n ≤ high)
    (hsize : (high - low + 1).toNat ≤ wordCount) (t : KeyStream) :
    ∃ words, ((intBetween low high).run { t with pending := words }).1 = n := by
  have hcount : wordCount = 2 ^ 64 := by decide
  unfold intBetween
  dsimp only
  split_ifs with hfull
  · rw [hcount] at hfull
    obtain ⟨w, hw⟩ : ∃ w, w = ((n - low).toNat + 2 ^ 63) % 2 ^ 64 := ⟨_, rfl⟩
    have hnat : (UInt64.ofNat w).toNat = w :=
      UInt64.toNat_ofNat_of_lt (by unfold UInt64.size; omega)
    refine ⟨halves (.ofNat w), ?_⟩
    change low + (((nextDoubleWord.run { t with pending := halves (.ofNat w) }).1.toNat
      + wordCount / 2) % wordCount : Nat) = n
    rw [run_nextDoubleWord_halves, hnat, hcount]
    omega
  · obtain ⟨words, hwords⟩ := exists_below_eq
      (by omega : (n - low).toNat < (high - low + 1).toNat) (by omega) t
    refine ⟨words, ?_⟩
    change low + (((below (high - low + 1).toNat).run { t with pending := words }).1 : Nat) = n
    rw [hwords]
    omega

theorem pick_mem {α : Type} {members : List α} (h : members ≠ []) (default : α) (s : KeyStream) :
    ((pick members default).run s).1 ∈ members := by
  have hlt := below_lt (List.length_pos_iff.2 h) s
  change members.getD ((below members.length).run s).1 default ∈ members
  rw [List.getD_eq_getElem _ _ hlt]
  exact List.getElem_mem hlt

end KeyStream

namespace Generator

open KeyStream

/-! ## Lists -/

theorem drawList_go_spec {α : Type} {P : α → Prop} {d : StateM KeyStream α}
    (h : ∀ s, P (d.run s).1) : ∀ (count : Nat) (drawn : List α), (∀ x ∈ drawn, P x) →
      ∀ s, (((drawList.go d count drawn).run s).1.length = drawn.length + count
        ∧ ∀ x ∈ ((drawList.go d count drawn).run s).1, P x)
  | 0, drawn, hdrawn, s => by
    change drawn.reverse.length = _ ∧ ∀ x ∈ drawn.reverse, P x
    simpa using hdrawn
  | count + 1, drawn, hdrawn, s => by
    have hnext : ∀ x ∈ (d.run s).1 :: drawn, P x := by simpa using ⟨h s, hdrawn⟩
    obtain ⟨hlength, hall⟩ := drawList_go_spec h count _ hnext (d.run s).2
    exact ⟨hlength.trans (by rw [List.length_cons]; omega), hall⟩

/-- As many members are drawn as were asked for, and what holds of each draw holds of them. -/
theorem drawList_spec {α : Type} {P : α → Prop} {d : StateM KeyStream α} (h : ∀ s, P (d.run s).1)
    (count : Nat) (s : KeyStream) :
    ((drawList count d).run s).1.length = count ∧ ∀ x ∈ ((drawList count d).run s).1, P x := by
  rw [drawList]
  simpa using drawList_go_spec h count [] (by simp) s

theorem characters_spec {alphabet : List Char} (h : alphabet ≠ []) (count : Nat) (s : KeyStream) :
    ((characters alphabet count).run s).1.toList.length = count
      ∧ ∀ c ∈ ((characters alphabet count).run s).1.toList, c ∈ alphabet := by
  have hlist : ((characters alphabet count).run s).1.toList
      = ((drawList count (pick alphabet ' ')).run s).1 := String.toList_ofList
  rw [hlist]
  exact drawList_spec (pick_mem h ' ') count s

end Generator

end JsonTemplate
