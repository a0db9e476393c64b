import JsonTemplate.Bytewise.Basic
import JsonTemplate.PlainJson

/-!
# Chains by offsets

A template is scanned by one offset that moves on, by a character or by a token at a time. What a
chain holds is counted while it is passed over; its text is cut out at its end.
-/

namespace JsonTemplate.Bytewise

open Text

section Scan

variable (input : List Char)

def peek (pos : Nat) : Work (Option Char) :=
  return (← remaining input pos).head?

/-- Takes a given character, if it stands at the offset. -/
def eat (c : Char) (pos : Nat) : Work (Option Nat) := do
  return if (← peek input pos) = some c then some (pos + c.utf8Size) else none

/-- A JSON blank is one byte. -/
def skipBlanks : (rounds pos : Nat) → Work Nat
  | 0, _ => throw .endless
  | rounds + 1, pos => do
    match ← peek input pos with
    | some c => if isJsonBlank c then skipBlanks rounds (pos + 1) else return pos
    | none => return pos

/-- Passes over the rest of a string literal. -/
def skipQuoted : (rounds : Nat) → (escaped : Bool) → (pos : Nat) → Work Nat
  | 0, _, _ => throw .endless
  | rounds + 1, escaped, pos => do
    match ← peek input pos with
    | none => return pos
    | some c =>
      let pos := pos + c.utf8Size
      if escaped then skipQuoted rounds false pos
      else if c = '\\' then skipQuoted rounds true pos
      else if c = '"' then return pos
      else skipQuoted rounds false pos

/-- The length of the token at an offset. -/
def tokenLength? (pos : Nat) : Work (Option Nat) :=
  return Token.length? (← remaining input pos)

/-- Passes over a literal or a token; says whether it is a token, and where it ends. -/
def scanOperand (pos : Nat) : Work (Option (Bool × Nat)) := do
  match ← peek input pos with
  | some '"' => return some (false, ← skipQuoted input (limit input) false (pos + 1))
  | some '@' => return (← tokenLength? input pos).map fun n => (true, pos + n)
  | _ => return none

/-- How far a chain goes, and how many operands and tokens it has. -/
structure Extent where
  stop : Nat
  operands : Nat
  tokens : Nat
  deriving DecidableEq

namespace Extent

/-- A chain with no operand so far. -/
def start (pos : Nat) : Extent :=
  ⟨pos, 0, 0⟩

/-- Adds an operand that ends at the given offset. -/
def add (e : Extent) (isToken : Bool) (stop : Nat) : Extent :=
  ⟨stop, e.operands + 1, if isToken then e.tokens + 1 else e.tokens⟩

end Extent

/-- Passes over the operands that are joined to a chain. A sign that no operand follows is not
passed over. -/
def scanJoined : (rounds : Nat) → Extent → Work Extent
  | 0, _ => throw .endless
  | rounds + 1, e => do
    match ← eat input '+' (← skipBlanks input (limit input) e.stop) with
    | none => return e
    | some pos =>
      match ← scanOperand input (← skipBlanks input (limit input) pos) with
      | none => return e
      | some (isToken, stop) => scanJoined rounds (e.add isToken stop)

/-- Passes over a chain, and adds to `out` what it becomes. -/
def scanChain (pos : Nat) (out : List Char) (p : Placeholders) :
    Work (Nat × List Char × Placeholders) := do
  match ← scanOperand input pos with
  | none => return (pos, out, p)
  | some (isToken, stop) =>
    let e ← scanJoined input (limit input) ((Extent.start pos).add isToken stop)
    let text ← slice input pos e.stop
    if 1 < e.operands ∧ 0 < e.tokens then
      let (placeholder, p) := p.recordExpression text
      return (e.stop, out ++ ('"' :: placeholder.toList ++ ['"']), p)
    else if 0 < e.tokens then return (e.stop, out ++ Json.quoted text, p)
    else return (e.stop, out ++ text, p)

/-- Whether a chain starts at an offset, where the given character stands. -/
def startsChain (c : Char) (pos : Nat) : Work Bool :=
  if c = '"' then return true
  else if c = '@' then return (← tokenLength? input pos).isSome
  else return false

/-- Replaces the chains from an offset on; `out` is what came of the text before. -/
def scanFrom : (rounds pos : Nat) → (out : List Char) → Placeholders →
    Work (List Char × Placeholders)
  | 0, _, _, _ => throw .endless
  | rounds + 1, pos, out, p => do
    match ← peek input pos with
    | none => return (out, p)
    | some c =>
      if ← startsChain input c pos then
        let (pos, out, p) ← scanChain input pos out p
        scanFrom rounds pos out p
      else scanFrom rounds (pos + c.utf8Size) (out ++ [c]) p

end Scan

/-- Replaces the chains of a text. -/
def quoteChains (t : List Char) (p : Placeholders) : Work (List Char × Placeholders) :=
  scanFrom t (limit t) 0 [] p

end JsonTemplate.Bytewise
