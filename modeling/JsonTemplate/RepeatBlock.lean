import JsonTemplate.Placeholder
import JsonTemplate.Width

/-!
# Repeat blocks

`[…] @repeat(n)` stands for an array with `n` copies of the first item of `[…]`. The blocks of a
text are recorded from left to right, each replaced by its quoted placeholder, so that a block
within a block is recorded before the block around it. The brackets of a block are matched
backwards from its mark, those within strings included. A mark that follows no array, or whose
count does not fit 64 bits, ends the search and stays in the text with all that follows.
-/

namespace JsonTemplate

open Text

namespace RepeatBlock

/-- How a repeat mark begins. -/
def markStart : List Char := "@repeat(".toList

/-- Takes a repeat mark off the head of a text, and gives its digits, which may be of any
script. -/
def splitMark? (t : List Char) : Option (List Char × List Char) :=
  (afterStart? markStart t).bind fun t =>
    match t.takeWhile isDecimalDigit, t.dropWhile isDecimalDigit with
    | d :: ds, ')' :: rest => some (d :: ds, rest)
    | _, _ => none

theorem length_lt_of_splitMark? {t ds rest : List Char} (h : splitMark? t = some (ds, rest)) :
    rest.length < t.length := by
  unfold splitMark? at h
  cases hs : afterStart? markStart t with
  | none => simp [hs] at h
  | some u =>
    simp only [hs, Option.bind_some] at h
    split at h
    · rename_i hd
      cases h
      have h₁ := congrArg List.length (eq_of_afterStart? hs)
      have h₂ := (List.dropWhile_suffix isDecimalDigit (l := u)).length_le
      simp only [hd, List.length_cons, List.length_append] at h₁ h₂
      omega
    · cases h

/-- The count that digits denote, if they are ASCII digits and it fits 64 bits. -/
def count? (ds : List Char) : Option Nat :=
  (readNat? ds).filter (· ≤ Width.greatestNat64)

/-- Walks from a closing bracket back to the bracket that it closes, over a reversed text; `depth`
brackets are open, and `taken` is what has been passed over. -/
def splitBracket? (depth : Nat) (taken : List Char) :
    List Char → Option (List Char × List Char)
  | [] => none
  | c :: before =>
    if c = ']' then splitBracket? (depth + 1) (c :: taken) before
    else if c = '[' then
      if depth ≤ 1 then some (c :: taken, before)
      else splitBracket? (depth - 1) (c :: taken) before
    else splitBracket? depth (c :: taken) before

/-- Takes an array off the end of a reversed text, with the blanks after it dropped. -/
def splitArray? (before : List Char) : Option (List Char × List Char) :=
  match before.dropWhile isAsciiBlank with
  | ']' :: before => splitBracket? 1 [']'] before
  | _ => none

/-- Replaces the blocks of `after` by placeholders; `before` is the reversed text to its left. -/
def extractFrom (before : List Char) (after : List Char) (p : Placeholders) :
    List Char × Placeholders :=
  match after with
  | [] => (before.reverse, p)
  | c :: t =>
    match _h : splitMark? (c :: t) with
    | none => extractFrom (c :: before) t p
    | some (ds, rest) =>
      match count? ds, splitArray? before with
      | some count, some (template, before) =>
        let (placeholder, p) := p.recordBlock ⟨String.ofList template, count⟩
        extractFrom ('"' :: placeholder.toList.reverse ++ '"' :: before) rest p
      | _, _ => (before.reverse ++ c :: t, p)
termination_by after.length
decreasing_by
  · simp
  · exact length_lt_of_splitMark? ‹_›

/-- Replaces every repeat block of a text by a quoted placeholder. -/
def extract (t : List Char) (p : Placeholders) : List Char × Placeholders :=
  extractFrom [] t p

end RepeatBlock

end JsonTemplate
