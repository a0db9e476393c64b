import JsonTemplate.Text.Split

/-!
# Texts between separators

Cutting a text at a separator and joining the pieces with it undo each other
(`intercalate_splitOn`, `splitOn_intercalate`), and a part of the text without separators lies
within one of the pieces (`exists_mem_splitOn`).
-/

namespace JsonTemplate.Text

/-- Two texts are cut one after the other, but for the piece that they share. -/
theorem splitOn_append (separator : Char) (b : List Char) : ∀ a : List Char,
    ∃ front last first back, splitOn separator a = front ++ [last]
      ∧ splitOn separator b = first :: back
      ∧ splitOn separator (a ++ b) = front ++ (last ++ first) :: back
  | [] => by
    obtain ⟨first, back, hb⟩ := List.exists_cons_of_ne_nil (splitOn_ne_nil separator b)
    exact ⟨[], [], first, back, rfl, hb, hb⟩
  | c :: a => by
    obtain ⟨front, last, first, back, ha, hb, hab⟩ := splitOn_append separator b a
    rw [List.cons_append, splitOn, splitOn, ha, hab]
    by_cases hc : c = separator
    · refine ⟨[] :: front, last, first, back, ?_, hb, ?_⟩
      · rw [if_pos hc]
        rfl
      · rw [if_pos hc]
        rfl
    · rw [if_neg hc, if_neg hc]
      cases front with
      | nil => exact ⟨[], c :: last, first, back, rfl, hb, rfl⟩
      | cons f front => exact ⟨(c :: f) :: front, last, first, back, rfl, hb, rfl⟩

theorem splitOn_append_eq {separator : Char} {a b last first : List Char}
    {front back : List (List Char)} (ha : splitOn separator a = front ++ [last])
    (hb : splitOn separator b = first :: back) :
    splitOn separator (a ++ b) = front ++ (last ++ first) :: back := by
  obtain ⟨front', last', first', back', ha', hb', hab⟩ := splitOn_append separator b a
  rw [ha] at ha'
  rw [hb] at hb'
  obtain ⟨rfl, hlast⟩ := List.append_inj' ha' rfl
  obtain ⟨rfl, rfl⟩ := List.cons.inj hb'
  rw [hab, List.singleton_inj.1 hlast]

theorem splitOn_append_cons (separator : Char) (a b : List Char) :
    splitOn separator (a ++ separator :: b) = splitOn separator a ++ splitOn separator b := by
  obtain ⟨front, last, first, back, ha, -, -⟩ := splitOn_append separator b a
  rw [splitOn_append_eq ha (by rw [splitOn, if_pos rfl]), ha]
  simp

theorem splitOn_of_notMem {separator : Char} : ∀ {t : List Char}, separator ∉ t →
    splitOn separator t = [t]
  | [], _ => rfl
  | c :: t, h => by
    rw [List.mem_cons, not_or] at h
    rw [splitOn, if_neg (Ne.symm h.1), splitOn_of_notMem h.2]
    rfl

/-- The pieces around a character that is no separator. -/
theorem exists_splitOn_around {separator c : Char} (hc : c ≠ separator) (a b : List Char) :
    ∃ front last first back, splitOn separator a = front ++ [last]
      ∧ splitOn separator (a ++ [c]) = front ++ [last ++ [c]]
      ∧ splitOn separator b = first :: back ∧ splitOn separator (c :: b) = (c :: first) :: back
      ∧ splitOn separator (a ++ c :: b) = front ++ (last ++ c :: first) :: back := by
  obtain ⟨front, last, first, back, ha, hb, -⟩ := splitOn_append separator b a
  have hcons : splitOn separator (c :: b) = (c :: first) :: back := by
    rw [splitOn, if_neg hc, hb]
    rfl
  have hsingle : splitOn separator [c] = [[c]] := splitOn_of_notMem (by simpa using Ne.symm hc)
  exact ⟨front, last, first, back, ha, splitOn_append_eq ha hsingle, hb, hcons,
    splitOn_append_eq ha hcons⟩

theorem splitOn_isInfix (separator : Char) : ∀ t : List Char,
    ∃ p ps, splitOn separator t = p :: ps ∧ p <+: t ∧ ∀ q ∈ ps, q <:+: t
  | [] => ⟨[], [], rfl, List.prefix_rfl, fun q hq => by cases hq⟩
  | c :: t => by
    obtain ⟨p, ps, hsplit, hp, hps⟩ := splitOn_isInfix separator t
    have hcons := (List.suffix_cons c t).isInfix
    rw [splitOn, hsplit]
    split
    · refine ⟨[], p :: ps, rfl, List.nil_prefix, fun q hq => ?_⟩
      rcases List.mem_cons.1 hq with rfl | hq
      · exact hp.isInfix.trans hcons
      · exact (hps q hq).trans hcons
    · exact ⟨c :: p, ps, rfl, List.cons_prefix_cons.2 ⟨rfl, hp⟩,
        fun q hq => (hps q hq).trans hcons⟩

theorem infix_of_mem_splitOn {separator : Char} {t s : List Char} (h : s ∈ splitOn separator t) :
    s <:+: t := by
  obtain ⟨p, ps, hsplit, hp, hps⟩ := splitOn_isInfix separator t
  rw [hsplit] at h
  rcases List.mem_cons.1 h with rfl | h
  · exact hp.isInfix
  · exact hps s h

/-- What is between two separators is one of the pieces. -/
theorem mem_splitOn {separator : Char} {t a b : List Char} (h : separator ∉ t) :
    t ∈ splitOn separator (a ++ separator :: (t ++ separator :: b)) := by
  rw [splitOn_append_cons, splitOn_append_cons, splitOn_of_notMem h]
  simp

/-- A part without separators lies within one of the pieces. -/
theorem exists_mem_splitOn {separator : Char} {t a b : List Char} (h : separator ∉ t) :
    ∃ s ∈ splitOn separator (a ++ (t ++ b)), t <:+: s := by
  obtain ⟨front, last, first, back, ha, hb, -⟩ := splitOn_append separator b a
  have ht : splitOn separator t = [] ++ [t] := splitOn_of_notMem h
  have htb : splitOn separator (t ++ b) = (t ++ first) :: back := splitOn_append_eq ht hb
  refine ⟨last ++ (t ++ first), ?_, last, first, by simp⟩
  rw [splitOn_append_eq ha htb]
  simp

theorem notMem_of_mem_splitOn {separator : Char} : ∀ {t s : List Char},
    s ∈ splitOn separator t → separator ∉ s
  | [], s, h => by
    obtain rfl := List.mem_singleton.1 h
    exact List.not_mem_nil
  | c :: t, s, h => by
    rw [splitOn] at h
    by_cases hc : c = separator
    · rw [if_pos hc] at h
      rcases List.mem_cons.1 h with rfl | h
      · exact List.not_mem_nil
      · exact notMem_of_mem_splitOn h
    · rw [if_neg hc] at h
      obtain ⟨p, ps, hsplit⟩ := List.exists_cons_of_ne_nil (splitOn_ne_nil separator t)
      rw [hsplit, List.modifyHead_cons] at h
      rcases List.mem_cons.1 h with rfl | h
      · rw [List.mem_cons, not_or]
        exact ⟨Ne.symm hc, notMem_of_mem_splitOn (by rw [hsplit]; exact List.mem_cons_self)⟩
      · exact notMem_of_mem_splitOn (by rw [hsplit]; exact List.mem_cons_of_mem p h)

/-- Pieces without separators are found again. -/
theorem splitOn_intercalate {separator : Char} : ∀ {ps : List (List Char)}, ps ≠ [] →
    (∀ p ∈ ps, separator ∉ p) → splitOn separator ([separator].intercalate ps) = ps
  | [p], _, h => by
    have hp := h p List.mem_cons_self
    simp [List.intercalate, splitOn_of_notMem hp]
  | p :: q :: ps, _, h => by
    have hjoin : [separator].intercalate (p :: q :: ps)
        = p ++ separator :: [separator].intercalate (q :: ps) := by simp [List.intercalate]
    rw [hjoin, splitOn_append_cons, splitOn_of_notMem (h p List.mem_cons_self),
      splitOn_intercalate (List.cons_ne_nil q ps) fun s hs => h s (List.mem_cons_of_mem p hs)]
    rfl

theorem mem_intercalate {separator : List Char} {c : Char} : ∀ {ts : List (List Char)},
    c ∈ separator.intercalate ts → c ∈ separator ∨ ∃ t ∈ ts, c ∈ t
  | [], h => by simp at h
  | [t], h => .inr ⟨t, List.mem_cons_self, by simpa using h⟩
  | t :: u :: ts, h => by
    rw [List.intercalate_cons_cons, List.mem_append, List.mem_append] at h
    rcases h with (h | h) | h
    · exact .inr ⟨t, List.mem_cons_self, h⟩
    · exact .inl h
    · exact (mem_intercalate h).imp_right fun ⟨s, hs, hc⟩ => ⟨s, List.mem_cons_of_mem t hs, hc⟩

/-- What follows each separator may be taken for the beginning of the next piece. -/
theorem intercalate_pair (c d : Char) : ∀ (ts : List (List Char)) (t : List Char),
    [c, d].intercalate (t :: ts) = [c].intercalate (t :: ts.map (d :: ·))
  | [], t => by simp
  | u :: ts, t => by
    have hcons : ∀ us, [c].intercalate ((d :: u) :: us) = d :: [c].intercalate (u :: us) := by
      intro us
      cases us <;> simp [List.intercalate_cons_cons]
    rw [List.intercalate_cons_cons, intercalate_pair c d ts u, List.map_cons,
      List.intercalate_cons_cons, hcons]
    simp

end JsonTemplate.Text
