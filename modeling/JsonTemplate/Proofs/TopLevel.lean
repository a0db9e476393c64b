import JsonTemplate.Proofs.Cutting

/-!
# The top level of an expression

A text is at the top level at its end if all literals and groups in round brackets that it opens are
closed again (`Complete`), which is what the scan for signs finds out (`Cursor.after_eq_top_iff`).
Cutting at the top-level signs loses nothing, leaves nothing to cut in a part, and may be done in
two texts apart that a top-level sign joins (`Expression.splitAtSigns_compositional`).
-/

namespace JsonTemplate

/-! ## Complete texts -/

/-- What may stand between the quotes of a literal: a backslash takes the next character with it. -/
inductive LiteralBody : List Char → Prop
  | nil : LiteralBody []
  | char {c : Char} {t : List Char} (hquote : c ≠ '"') (hslash : c ≠ '\\') (ht : LiteralBody t) :
    LiteralBody (c :: t)
  | escape (c : Char) {t : List Char} (ht : LiteralBody t) : LiteralBody ('\\' :: c :: t)

/-- All literals and groups that are opened are closed again. Within a group there is no closing
bracket too many; outside all groups it is a character like others. -/
inductive Enclosed : (grouped : Bool) → List Char → Prop
  | nil {grouped : Bool} : Enclosed grouped []
  | char {grouped : Bool} {c : Char} {t : List Char} (hquote : c ≠ '"') (hopen : c ≠ '(')
    (hclose : c = ')' → grouped = false) (ht : Enclosed grouped t) : Enclosed grouped (c :: t)
  | literal {grouped : Bool} {u t : List Char} (hu : LiteralBody u) (ht : Enclosed grouped t) :
    Enclosed grouped ('"' :: (u ++ '"' :: t))
  | group {grouped : Bool} {u t : List Char} (hu : Enclosed true u) (ht : Enclosed grouped t) :
    Enclosed grouped ('(' :: (u ++ ')' :: t))

/-- The end of the text is outside all literals and groups. -/
def Complete (t : List Char) : Prop :=
  Enclosed false t

namespace Cursor

theorem after_cons (s : Cursor) (c : Char) (t : List Char) :
    s.after (c :: t) = (s.next c).after t :=
  rfl

theorem after_literalBody {u : List Char} (hu : LiteralBody u) (d : Nat) :
    (quoted d).after u = quoted d := by
  induction hu with
  | nil => rfl
  | @char c t hquote hslash _ ih =>
    have hnext : (quoted d).next c = quoted d := by simp [next, hquote, hslash]
    rw [after_cons, hnext, ih]
  | escape c _ ih => exact ih

theorem after_enclosed {grouped : Bool} {t : List Char} (h : Enclosed grouped t) :
    ∀ {d : Nat}, (grouped = false → d = 0) → (outside d).after t = outside d := by
  induction h with
  | nil => exact fun _ => rfl
  | @char grouped c t hquote hopen hclose _ ih =>
    intro d hd
    have hnext : (outside d).next c = outside d := by
      by_cases hc : c = ')'
      · simp [next, hc, hd (hclose hc)]
      · simp [next, hquote, hopen, hc]
    rw [after_cons, hnext, ih hd]
  | literal hu _ ih =>
    intro d hd
    have hopen : (outside d).next '"' = quoted d := rfl
    have hclose : (quoted d).next '"' = outside d := rfl
    rw [after_cons, hopen, after_append, after_literalBody hu, after_cons, hclose, ih hd]
  | group _ _ ihu ih =>
    intro d hd
    have hopen : (outside d).next '(' = outside (d + 1) := rfl
    have hclose : (outside (d + 1)).next ')' = outside d := rfl
    rw [after_cons, hopen, after_append, ihu (fun h => absurd h (by decide)), after_cons, hclose,
      ih hd]

/-- The text closes so many groups that are open before it. -/
def Closes : Nat → List Char → Prop
  | 0, t => Complete t
  | d + 1, t => ∃ u v, t = u ++ ')' :: v ∧ Enclosed true u ∧ Closes d v

/-- Whether what precedes the text is such that all is closed at its end, told from the cursor. -/
def Finishes : Cursor → List Char → Prop
  | .outside d, t => Closes d t
  | .quoted d, t => ∃ u v, t = u ++ '"' :: v ∧ LiteralBody u ∧ Closes d v
  | .escaped d, t => ∃ c u v, t = c :: (u ++ '"' :: v) ∧ LiteralBody u ∧ Closes d v

theorem Closes.literal {u t : List Char} (hu : LiteralBody u) :
    ∀ {d : Nat}, Closes d t → Closes d ('"' :: (u ++ '"' :: t))
  | 0, h => Enclosed.literal hu h
  | d + 1, h => by
    obtain ⟨v, w, rfl, hv, hw⟩ := h
    exact ⟨'"' :: (u ++ '"' :: v), w, by simp, .literal hu hv, hw⟩

theorem Closes.group {u t : List Char} (hu : Enclosed true u) :
    ∀ {d : Nat}, Closes d t → Closes d ('(' :: (u ++ ')' :: t))
  | 0, h => Enclosed.group hu h
  | d + 1, h => by
    obtain ⟨v, w, rfl, hv, hw⟩ := h
    exact ⟨'(' :: (u ++ ')' :: v), w, by simp, .group hu hv, hw⟩

theorem Closes.char {c : Char} {t : List Char} (hquote : c ≠ '"') (hopen : c ≠ '(')
    (hclose : c ≠ ')') : ∀ {d : Nat}, Closes d t → Closes d (c :: t)
  | 0, h => Enclosed.char hquote hopen (fun hc => absurd hc hclose) h
  | d + 1, h => by
    obtain ⟨v, w, rfl, hv, hw⟩ := h
    exact ⟨c :: v, w, rfl, .char hquote hopen (fun hc => absurd hc hclose) hv, hw⟩

theorem finishes_cons {s : Cursor} {c : Char} {t : List Char} (h : (s.next c).Finishes t) :
    s.Finishes (c :: t) := by
  cases s with
  | outside d =>
    by_cases hquote : c = '"'
    · subst hquote
      obtain ⟨u, v, rfl, hu, hv⟩ := h
      exact hv.literal hu
    · by_cases hopen : c = '('
      · subst hopen
        obtain ⟨u, v, rfl, hu, hv⟩ := h
        exact hv.group hu
      · by_cases hclose : c = ')'
        · subst hclose
          cases d with
          | zero => exact Enclosed.char hquote hopen (fun _ => rfl) h
          | succ d => exact ⟨[], t, rfl, .nil, h⟩
        · have hnext : (outside d).next c = outside d := by simp [next, hquote, hopen, hclose]
          rw [hnext] at h
          exact Closes.char hquote hopen hclose h
  | quoted d =>
    by_cases hslash : c = '\\'
    · subst hslash
      obtain ⟨c, u, v, rfl, hu, hv⟩ := h
      exact ⟨'\\' :: c :: u, v, rfl, .escape c hu, hv⟩
    · by_cases hquote : c = '"'
      · subst hquote
        exact ⟨[], t, rfl, .nil, h⟩
      · have hnext : (quoted d).next c = quoted d := by simp [next, hslash, hquote]
        rw [hnext] at h
        obtain ⟨u, v, rfl, hu, hv⟩ := h
        exact ⟨c :: u, v, rfl, .char hquote hslash hu, hv⟩
  | escaped d =>
    obtain ⟨u, v, rfl, hu, hv⟩ := h
    exact ⟨c, u, v, rfl, hu, hv⟩

theorem finishes_of_after : ∀ {t : List Char} {s : Cursor}, s.after t = .top → s.Finishes t
  | [], s, h => by
    obtain rfl : s = .top := h
    exact Enclosed.nil
  | _ :: _, _, h => finishes_cons (finishes_of_after h)

/-- The scan for signs is at the top level after the complete texts. -/
theorem after_eq_top_iff {t : List Char} : Cursor.top.after t = .top ↔ Complete t :=
  ⟨fun h => finishes_of_after h, fun h => after_enclosed h fun _ => rfl⟩

end Cursor

instance : DecidablePred Complete :=
  fun _ => decidable_of_iff _ Cursor.after_eq_top_iff

/-! ## Parts -/

/-- In no part there is a sign at the top level. -/
theorem uncut_splitFrom : ∀ (s : Cursor) (t : List Char),
    ∃ p ps, splitFrom s t = p :: ps ∧ s.Uncut p ∧ ∀ q ∈ ps, Cursor.top.Uncut q
  | s, [] => ⟨[], [], rfl, trivial, fun q hq => nomatch hq⟩
  | s, c :: t => by
    rw [splitFrom]
    split
    · obtain ⟨p, ps, hsplit, hp, hps⟩ := uncut_splitFrom .top t
      exact ⟨[], p :: ps, by rw [hsplit], trivial, List.forall_mem_cons.2 ⟨hp, hps⟩⟩
    · rename_i hcut
      obtain ⟨p, ps, hsplit, hp, hps⟩ := uncut_splitFrom (s.next c) t
      exact ⟨c :: p, ps, by rw [hsplit]; rfl, ⟨hcut, hp⟩, hps⟩

theorem splitAtSigns_of_uncut {t : List Char} (h : Cursor.top.Uncut t) : splitAtSigns t = [t] := by
  have happ : splitFrom .top (t ++ []) = (splitFrom (Cursor.top.after t) []).modifyHead (t ++ ·) :=
    h.splitFrom_append
  rw [List.append_nil] at happ
  rw [splitAtSigns, happ]
  simp [splitFrom]

theorem uncut_of_mem_splitAtSigns {t part : List Char} (h : part ∈ splitAtSigns t) :
    Cursor.top.Uncut part := by
  obtain ⟨p, ps, hsplit, hp, hps⟩ := uncut_splitFrom .top t
  rw [splitAtSigns, hsplit] at h
  rcases List.mem_cons.1 h with rfl | h
  · exact hp
  · exact hps part h

theorem splitFrom_append_sign {b : List Char} : ∀ {a : List Char} {s : Cursor}, s.after a = .top →
    splitFrom s (a ++ '+' :: b) = splitFrom s a ++ splitAtSigns b
  | [], s, h => by
    obtain rfl : s = .top := h
    rfl
  | c :: a, s, h => by
    rw [List.cons_append, splitFrom, splitFrom]
    split
    · rename_i hcut
      obtain ⟨rfl, rfl⟩ := hcut
      have htop : Cursor.top.after a = .top := h
      rw [splitFrom_append_sign htop, List.cons_append]
    · have htop : (s.next c).after a = .top := h
      rw [splitFrom_append_sign htop]
      obtain ⟨p, ps, hp⟩ := List.exists_cons_of_ne_nil (splitFrom_ne_nil (s.next c) a)
      rw [hp]
      rfl

/-! ## Counting signs -/

/-- The places of the signs that are outside all literals and groups. -/
def topSigns (t : List Char) : List Nat :=
  (List.range t.length).filter fun i => t[i]? = some '+' ∧ Complete (t.take i)

/-- A cursor at the top level before a sign is a cut. -/
theorem length_splitFrom : ∀ (t : List Char) (s : Cursor),
    (splitFrom s t).length
      = (List.range t.length).countP (fun i => t[i]? = some '+' ∧ s.after (t.take i) = .top) + 1
  | [], s => rfl
  | c :: t, s => by
    have hfirst : (s.after ((c :: t).take 0) = .top) = (s = .top) := rfl
    rw [List.length_cons, List.range_succ_eq_map, List.countP_cons, List.countP_map, splitFrom]
    simp only [Function.comp_def, List.getElem?_cons_zero, List.getElem?_cons_succ,
      List.take_succ_cons, Cursor.after_cons, hfirst, Option.some.injEq]
    by_cases hcut : s = .top ∧ c = '+'
    · obtain ⟨rfl, rfl⟩ := hcut
      have hnext : Cursor.top.next '+' = .top := rfl
      rw [if_pos ⟨rfl, rfl⟩, List.length_cons, length_splitFrom t .top]
      simp [hnext]
    · rw [if_neg hcut, List.length_modifyHead, length_splitFrom t (s.next c)]
      simp [and_comm, hcut]

theorem length_splitAtSigns (t : List Char) :
    (splitAtSigns t).length = (topSigns t).length + 1 := by
  simp only [splitAtSigns, length_splitFrom, topSigns, Cursor.after_eq_top_iff,
    List.countP_eq_length_filter]

namespace Expression

/-- The parts at the top-level signs make up the text, with the signs between them, and are not cut
again. A sign after a complete text, which is one after which the scan is at the top level, cuts:
the parts are those before it and those after it. So there is one segment more than there are signs
outside all literals and groups. -/
theorem splitAtSigns_compositional :
    (∀ t, ['+'].intercalate (splitAtSigns t) = t)
    ∧ (∀ t, ∀ part ∈ splitAtSigns t, splitAtSigns part = [part])
    ∧ (∀ a b, Complete a → splitAtSigns (a ++ '+' :: b) = splitAtSigns a ++ splitAtSigns b)
    ∧ (∀ a, Cursor.top.after a = .top ↔ Complete a)
    ∧ ∀ t, (parse t).length = (topSigns t).length + 1 := by
  refine ⟨intercalate_splitAtSigns, fun t part hpart => ?_, fun a b ha => ?_,
    fun a => Cursor.after_eq_top_iff, fun t => ?_⟩
  · exact splitAtSigns_of_uncut (uncut_of_mem_splitAtSigns hpart)
  · exact splitFrom_append_sign (Cursor.after_eq_top_iff.2 ha)
  · rw [parse, List.length_map, length_splitAtSigns]

/-- The sign in a literal and the one in a group are not cut at, nor does the bracket in the literal
open a group. A bracket that closes none is a character like others. -/
theorem splitAtSigns_compositional_brackets :
    Complete "\"+(\" + @x.y(1+2)".toList
      ∧ splitAtSigns "\"+(\" + @x.y(1+2)+z)".toList
          = splitAtSigns "\"+(\" + @x.y(1+2)".toList ++ splitAtSigns "z)".toList :=
  have hcomplete : Complete "\"+(\" + @x.y(1+2)".toList := by decide +kernel
  ⟨hcomplete, splitAtSigns_compositional.2.2.1 _ "z)".toList hcomplete⟩

end Expression

end JsonTemplate
