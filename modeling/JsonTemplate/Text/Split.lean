/-!
# Cutting texts

`splitOn` cuts a text at every occurrence of a character; joining the pieces with that character
gives the text back (`intercalate_splitOn`). `afterStart?` and `beforeEnd?` take a given text off
an end.
-/

namespace JsonTemplate.Text

def splitOn (separator : Char) : List Char → List (List Char)
  | [] => [[]]
  | c :: t =>
    if c = separator then [] :: splitOn separator t
    else (splitOn separator t).modifyHead (c :: ·)

theorem splitOn_ne_nil (separator : Char) (t : List Char) : splitOn separator t ≠ [] := by
  cases t with
  | nil => simp [splitOn]
  | cons c t =>
    simp only [splitOn]
    split
    · simp
    · simpa using splitOn_ne_nil separator t

theorem intercalate_modifyHead {sep : List Char} {c : Char} {ps : List (List Char)} (h : ps ≠ []) :
    sep.intercalate (ps.modifyHead (c :: ·)) = c :: sep.intercalate ps := by
  match ps, h with
  | [_], _ => simp [List.intercalate]
  | _ :: _ :: _, _ => simp [List.intercalate]

theorem intercalate_splitOn (separator : Char) (t : List Char) :
    [separator].intercalate (splitOn separator t) = t := by
  induction t with
  | nil => simp [splitOn, List.intercalate]
  | cons c t ih =>
    simp only [splitOn]
    have hne := splitOn_ne_nil separator t
    split
    · rename_i h
      subst h
      match hs : splitOn c t, hne with
      | p :: ps, _ => simpa [List.intercalate, hs] using ih
    · rw [intercalate_modifyHead hne, ih]

/-- The text without a given beginning. -/
def afterStart? (start t : List Char) : Option (List Char) :=
  if start.isPrefixOf t then some (t.drop start.length) else none

/-- The text without a given end. -/
def beforeEnd? (ending t : List Char) : Option (List Char) :=
  (afterStart? ending.reverse t.reverse).map List.reverse

theorem eq_of_afterStart? {start t rest : List Char} (h : afterStart? start t = some rest) :
    t = start ++ rest := by
  unfold afterStart? at h
  split at h
  · rename_i hp
    obtain ⟨u, rfl⟩ := List.isPrefixOf_iff_prefix.1 hp
    simpa using h
  · cases h

end JsonTemplate.Text
