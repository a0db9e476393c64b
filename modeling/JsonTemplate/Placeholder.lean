import JsonTemplate.Json.Basic
import JsonTemplate.Text.Blank
import JsonTemplate.Text.Digit
import JsonTemplate.Text.Split

/-!
# Placeholders

Expressions and repeat blocks are not JSON. While a template is read as JSON, quoted placeholders
stand for them, and a table says what each stands for. Expressions leave the table when they are
put back; blocks stay, since every copy of a block is made from its text. Numbers are never used
twice, so texts read later with the same table never meet a placeholder of an earlier one.
-/

namespace JsonTemplate

open Text

/-- An array that is repeated: its text, brackets included, and the number of copies. -/
structure RepeatBlock where
  template : String
  count : Nat
  deriving DecidableEq

namespace Placeholder

/-- The placeholder of an expression. -/
def ofExpression (n : Nat) : String :=
  String.ofList ("__EXPR_".toList ++ natText n ++ "__".toList)

/-- The name of a repeat block. -/
def blockName (n : Nat) : String :=
  String.ofList ("ARRAY_".toList ++ natText n)

/-- The placeholder of the block with the given name. -/
def ofBlock (name : String) : String :=
  String.ofList ("__REPEAT_".toList ++ name.toList ++ "__".toList)

/-- The name within a text that has the form of a block's placeholder. -/
def blockName? (t : List Char) : Option (List Char) :=
  (afterStart? "__REPEAT_".toList t).bind (beforeEnd? "__".toList)

end Placeholder

/-- What the placeholders stand for: the expressions by placeholder, the blocks by name, and the
numbers that the next ones get. -/
structure Placeholders where
  expressions : List (String × String) := []
  blocks : List (String × RepeatBlock) := []
  nextExpression : Nat := 0
  nextBlock : Nat := 0

namespace Placeholders

/-- Records an expression without the blanks around it, and gives its placeholder. -/
def recordExpression (p : Placeholders) (t : List Char) : String × Placeholders :=
  let placeholder := Placeholder.ofExpression p.nextExpression
  (placeholder, { p with
    expressions := p.expressions ++ [(placeholder, String.ofList (trim t))]
    nextExpression := p.nextExpression + 1 })

/-- Records a block, and gives its placeholder. -/
def recordBlock (p : Placeholders) (block : RepeatBlock) : String × Placeholders :=
  let name := Placeholder.blockName p.nextBlock
  (Placeholder.ofBlock name, { p with
    blocks := p.blocks ++ [(name, block)]
    nextBlock := p.nextBlock + 1 })

def expression? (p : Placeholders) (placeholder : String) : Option String :=
  p.expressions.lookup placeholder

def block? (p : Placeholders) (name : String) : Option RepeatBlock :=
  p.blocks.lookup name

/-- A string that is a placeholder of the table becomes its expression, which leaves the table. -/
def reinstateString (s : String) : StateM Placeholders Json := fun p =>
  match p.expression? s with
  | some t => (.string t, { p with expressions := p.expressions.filter (·.1 != s) })
  | none => (.string s, p)

/-- Puts the expressions back into a value, in document order. Each is put back once. -/
def reinstate (p : Placeholders) (v : Json) : Json × Placeholders :=
  (v.traverseStrings reinstateString).run p

end Placeholders

end JsonTemplate
