import JsonTemplate.Directive
import JsonTemplate.RepeatBlock

/-!
# Templates as plain JSON

A repeat block or a concatenation becomes a quoted placeholder, a lone directive the JSON string of
its text, and all else stays. The unit is a chain: string literals and directive tokens joined by
`+`, as many as follow one another. A chain and the text after it are the text that it was taken
off (`Chain.split?_append`).
-/

namespace JsonTemplate

open Text

/-- What a chain is made of. -/
inductive Operand
  | literal (t : List Char)
  | token (t : List Char)
  deriving DecidableEq

namespace Operand

def text : Operand → List Char
  | .literal t => t
  | .token t => t

def isToken : Operand → Bool
  | .literal _ => false
  | .token _ => true

/-- Takes the rest of a string literal off a text, up to its closing quote; an unclosed literal
takes all. -/
def splitQuoted : (escaped : Bool) → List Char → List Char × List Char
  | _, [] => ([], [])
  | true, c :: t =>
    let (read, rest) := splitQuoted false t
    (c :: read, rest)
  | false, c :: t =>
    if c = '"' then ([c], t)
    else
      let (read, rest) := splitQuoted (c == '\\') t
      (c :: read, rest)

/-- Takes a string literal or a token off the head of a text. -/
def split? : List Char → Option (Operand × List Char)
  | '"' :: t =>
    let (read, rest) := splitQuoted false t
    some (.literal ('"' :: read), rest)
  | t => (Token.split? t).map fun (k, rest) => (.token k.text, rest)

theorem splitQuoted_append (escaped : Bool) (t : List Char) :
    (splitQuoted escaped t).1 ++ (splitQuoted escaped t).2 = t := by
  induction t generalizing escaped with
  | nil => cases escaped <;> rfl
  | cons c t ih =>
    cases escaped with
    | true => simp [splitQuoted, ih]
    | false =>
      simp only [splitQuoted]
      split <;> simp [ih]

theorem split?_append {t rest : List Char} {o : Operand} (h : split? t = some (o, rest)) :
    o.text ++ rest = t := by
  unfold split? at h
  split at h
  · rename_i t
    cases h
    simpa [text] using splitQuoted_append false t
  · obtain ⟨⟨k, rest'⟩, hs, heq⟩ := Option.map_eq_some_iff.1 h
    cases heq
    exact Token.split?_append hs

theorem text_ne_nil {t rest : List Char} {o : Operand} (h : split? t = some (o, rest)) :
    o.text ≠ [] := by
  unfold split? at h
  split at h
  · cases h; simp [text]
  · obtain ⟨⟨k, rest'⟩, hs, heq⟩ := Option.map_eq_some_iff.1 h
    cases heq
    simp [text, Token.text]

theorem length_lt_of_split? {t rest : List Char} {o : Operand} (h : split? t = some (o, rest)) :
    rest.length < t.length := by
  have h₁ := congrArg List.length (split?_append h)
  have h₂ := List.length_pos_iff.2 (text_ne_nil h)
  simp only [List.length_append] at h₁
  omega

end Operand

/-- Takes a `+` and an operand off the head of a text, with the blanks before each. The first part
is what stands before the operand. -/
def splitJoin? (t : List Char) : Option (List Char × Operand × List Char) :=
  match skipBlanks t with
  | '+' :: u =>
    (Operand.split? (skipBlanks u)).map fun (o, rest) =>
      (t.takeWhile isJsonBlank ++ '+' :: u.takeWhile isJsonBlank, o, rest)
  | _ => none

theorem splitJoin?_append {t join rest : List Char} {o : Operand}
    (h : splitJoin? t = some (join, o, rest)) : join ++ o.text ++ rest = t := by
  unfold splitJoin? at h
  split at h
  · rename_i u hu
    obtain ⟨⟨o', rest'⟩, hs, heq⟩ := Option.map_eq_some_iff.1 h
    cases heq
    have h₁ := Operand.split?_append hs
    have h₂ := List.takeWhile_append_dropWhile (p := isJsonBlank) (l := t)
    have h₃ := List.takeWhile_append_dropWhile (p := isJsonBlank) (l := u)
    rw [skipBlanks] at hu h₁
    rw [hu] at h₂
    rw [← h₃, ← h₁] at h₂
    simpa using h₂
  · cases h

theorem length_lt_of_splitJoin? {t join rest : List Char} {o : Operand}
    (h : splitJoin? t = some (join, o, rest)) : rest.length < t.length := by
  unfold splitJoin? at h
  split at h
  · rename_i u hu
    obtain ⟨⟨o', rest'⟩, hs, heq⟩ := Option.map_eq_some_iff.1 h
    cases heq
    have h₁ := Operand.length_lt_of_split? hs
    have h₂ := length_skipBlanks_le t
    have h₃ := length_skipBlanks_le u
    rw [hu] at h₂
    simp only [List.length_cons] at h₂
    omega
  · cases h

/-- Operands joined by `+`, with their text. -/
structure Chain where
  text : List Char
  operands : List Operand
  deriving DecidableEq

namespace Chain

/-- Takes the joined operands off the head of a text. -/
def splitJoined (t : List Char) : Chain × List Char :=
  match _h : splitJoin? t with
  | none => (⟨[], []⟩, t)
  | some (join, o, rest) =>
    let (chain, rest) := splitJoined rest
    (⟨join ++ o.text ++ chain.text, o :: chain.operands⟩, rest)
termination_by t.length
decreasing_by exact length_lt_of_splitJoin? ‹_›

/-- Takes a chain off the head of a text. -/
def split? (t : List Char) : Option (Chain × List Char) :=
  (Operand.split? t).map fun (o, rest) =>
    let (chain, rest) := splitJoined rest
    (⟨o.text ++ chain.text, o :: chain.operands⟩, rest)

theorem splitJoined_append (t : List Char) : (splitJoined t).1.text ++ (splitJoined t).2 = t := by
  fun_induction splitJoined t with
  | case1 => rfl
  | case2 t join o rest h chain rest' heq ih =>
    simp only [heq] at ih
    rw [← splitJoin?_append h, ← ih]
    simp

theorem split?_append {t rest : List Char} {chain : Chain} (h : split? t = some (chain, rest)) :
    chain.text ++ rest = t := by
  obtain ⟨⟨o, rest'⟩, hs, heq⟩ := Option.map_eq_some_iff.1 h
  cases heq
  rw [← Operand.split?_append hs]
  simp [splitJoined_append]

theorem length_lt_of_split? {t rest : List Char} {chain : Chain}
    (h : split? t = some (chain, rest)) : rest.length < t.length := by
  obtain ⟨⟨o, rest'⟩, hs, heq⟩ := Option.map_eq_some_iff.1 h
  cases heq
  have h₁ := Operand.length_lt_of_split? hs
  have h₂ := congrArg List.length (splitJoined_append rest')
  simp only [List.length_append] at h₂
  omega

/-- What a chain becomes: a concatenation is recorded, a lone token is quoted, and literals alone
stay as they are. -/
def toPlain (chain : Chain) (p : Placeholders) : List Char × Placeholders :=
  if chain.operands.any Operand.isToken then
    if 1 < chain.operands.length then
      let (placeholder, p) := p.recordExpression chain.text
      ('"' :: placeholder.toList ++ ['"'], p)
    else (Json.quoted chain.text, p)
  else (chain.text, p)

end Chain

/-- Replaces the chains of a text. -/
def quoteChains (t : List Char) (p : Placeholders) : List Char × Placeholders :=
  match t with
  | [] => ([], p)
  | c :: t =>
    match _h : Chain.split? (c :: t) with
    | none =>
      let (rest, p) := quoteChains t p
      (c :: rest, p)
    | some (chain, rest) =>
      let (replaced, p) := chain.toPlain p
      let (rest, p) := quoteChains rest p
      (replaced ++ rest, p)
termination_by t.length
decreasing_by
  · simp
  · exact Chain.length_lt_of_split? ‹_›

/-- Makes a template plain JSON: first the repeat blocks, so that the expressions within a block
stay in its text, then the chains. -/
def toPlainJson (t : List Char) (p : Placeholders) : List Char × Placeholders :=
  let (t, p) := RepeatBlock.extract t p
  quoteChains t p

end JsonTemplate
