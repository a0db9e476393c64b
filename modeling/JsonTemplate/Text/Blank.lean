/-!
# Blanks

Three classes of white space meet in a template: the full class that trims texts, the ASCII class
allowed before a repeat mark, and the four characters that JSON allows between tokens. Each class
lies within the one before it (`isBlank_of_isAsciiBlank`, `isAsciiBlank_of_isJsonBlank`).
-/

namespace JsonTemplate.Text

/-- The characters with the Unicode property White_Space. -/
def isBlank (c : Char) : Bool :=
  let n := c.toNat
  (0x09 ≤ n && n ≤ 0x0D) || n == 0x20 || n == 0x85 || n == 0xA0 || n == 0x1680
    || (0x2000 ≤ n && n ≤ 0x200A) || n == 0x2028 || n == 0x2029 || n == 0x202F || n == 0x205F
    || n == 0x3000

/-- Space, tab, line feed, form feed and carriage return. -/
def isAsciiBlank (c : Char) : Bool :=
  c == ' ' || c == '\t' || c == '\n' || c == '\x0C' || c == '\r'

/-- The blanks that may stand between the tokens of a JSON text. -/
def isJsonBlank (c : Char) : Bool :=
  c == ' ' || c == '\t' || c == '\n' || c == '\r'

theorem isAsciiBlank_of_isJsonBlank {c : Char} (h : isJsonBlank c = true) :
    isAsciiBlank c = true := by
  simp only [isJsonBlank, isAsciiBlank, Bool.or_eq_true, beq_iff_eq] at h ⊢
  rcases h with ((h | h) | h) | h <;> simp [h]

theorem isBlank_of_isAsciiBlank {c : Char} (h : isAsciiBlank c = true) : isBlank c = true := by
  simp only [isAsciiBlank, Bool.or_eq_true, beq_iff_eq] at h
  rcases h with (((h | h) | h) | h) | h <;> subst h <;> rfl

theorem isBlank_of_isJsonBlank {c : Char} (h : isJsonBlank c = true) : isBlank c = true :=
  isBlank_of_isAsciiBlank (isAsciiBlank_of_isJsonBlank h)

def trimStart (t : List Char) : List Char :=
  t.dropWhile isBlank

def trimEnd (t : List Char) : List Char :=
  (t.reverse.dropWhile isBlank).reverse

/-- The text without the blanks at its two ends. -/
def trim (t : List Char) : List Char :=
  trimEnd (trimStart t)

/-- The JSON blanks at the head of a text are skipped. -/
def skipBlanks (t : List Char) : List Char :=
  t.dropWhile isJsonBlank

theorem length_skipBlanks_le (t : List Char) : (skipBlanks t).length ≤ t.length :=
  (List.dropWhile_suffix _).length_le

end JsonTemplate.Text
