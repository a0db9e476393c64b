import JsonTemplate.Text.Position

/-!
# Syntax errors of JSON texts

What can be wrong with a text, with its wording, and where it is wrong.
-/

namespace JsonTemplate.Json

open Text

inductive SyntaxCause
  | endInValue
  | endInArray
  | endInObject
  | endInString
  | expectedValue
  | expectedWord
  | expectedColon
  | expectedCommaOrBracket
  | expectedCommaOrBrace
  | keyMustBeString
  | trailingComma
  | trailingCharacters
  | tooDeep
  | controlCharacter
  | invalidEscape
  | loneSurrogate
  | endOfHexEscape
  | invalidNumber
  | numberOutOfRange
  deriving DecidableEq, Repr

def SyntaxCause.message : SyntaxCause → String
  | .endInValue => "EOF while parsing a value"
  | .endInArray => "EOF while parsing a list"
  | .endInObject => "EOF while parsing an object"
  | .endInString => "EOF while parsing a string"
  | .expectedValue => "expected value"
  | .expectedWord => "expected ident"
  | .expectedColon => "expected `:`"
  | .expectedCommaOrBracket => "expected `,` or `]`"
  | .expectedCommaOrBrace => "expected `,` or `\x7d`"
  | .keyMustBeString => "key must be a string"
  | .trailingComma => "trailing comma"
  | .trailingCharacters => "trailing characters"
  | .tooDeep => "recursion limit exceeded"
  | .controlCharacter => "control character (\\u0000-\\u001F) found while parsing a string"
  | .invalidEscape => "invalid escape"
  | .loneSurrogate => "lone leading surrogate in hex escape"
  | .endOfHexEscape => "unexpected end of hex escape"
  | .invalidNumber => "invalid number"
  | .numberOutOfRange => "number out of range"

structure SyntaxError where
  cause : SyntaxCause
  position : Position
  deriving DecidableEq, Repr

/-- Where reading stopped: the text from the offending character on, and how many bytes of it the
error's place lies ahead. -/
structure Stop where
  cause : SyntaxCause
  unread : List Char
  ahead : Nat

/-- The error for a stop within a text. The place never lies beyond the end of the text. -/
def Stop.toError (s : Stop) (text : List Char) : SyntaxError :=
  let offset := utf8Length text - utf8Length s.unread + s.ahead
  ⟨s.cause, .ofOffset text (min offset (utf8Length text))⟩

end JsonTemplate.Json
