/-!
# Errors in JSON text

What can be wrong with a text that is to be read as JSON, and the message for each.  A `Fault` is
the place where a text stops being JSON; what is wrong there can depend on what a reader does with
the value.
-/

namespace GraphCodec.Json

/-- What is wrong with a text that is to be read as JSON. -/
inductive SyntaxError where
  /-- The text ends where a value is to come, or inside a literal or a number. -/
  | endInValue
  /-- The text ends inside an array. -/
  | endInList
  /-- The text ends inside an object. -/
  | endInObject
  /-- The text ends inside a string. -/
  | endInString
  /-- No value starts with this character. -/
  | expectedValue
  /-- A wrong letter inside `null`, `true` or `false`. -/
  | expectedIdent
  /-- Something other than a comma or the closing bracket follows an element. -/
  | expectedListEnd
  /-- Something other than a comma or the closing brace follows a member. -/
  | expectedObjectEnd
  /-- Something other than a colon follows a member's name. -/
  | expectedColon
  /-- A member's name does not start with a quote. -/
  | keyNotString
  /-- A comma stands directly before the closing bracket or brace. -/
  | trailingComma
  /-- Something follows the value. -/
  | trailingCharacters
  /-- The digits of a number are malformed. -/
  | invalidNumber
  /-- The number is too large for a double. -/
  | numberOutOfRange
  /-- An unknown escape, or an escape with a character that is no hexadecimal digit. -/
  | invalidEscape
  /-- A control character stands in a string. -/
  | controlCharacter
  /-- An escaped surrogate has no partner. -/
  | loneSurrogate
  /-- No escape follows an escaped high surrogate. -/
  | unexpectedHexEnd
  /-- The nesting is deeper than the reader allows. -/
  | recursionLimit
deriving DecidableEq, Repr

/-- The message of an error. -/
def SyntaxError.message : SyntaxError → String
  | endInValue => "EOF while parsing a value"
  | endInList => "EOF while parsing a list"
  | endInObject => "EOF while parsing an object"
  | endInString => "EOF while parsing a string"
  | expectedValue => "expected value"
  | expectedIdent => "expected ident"
  | expectedListEnd => "expected `,` or `]`"
  | expectedObjectEnd => "expected `,` or `\x7d`"
  | expectedColon => "expected `:`"
  | keyNotString => "key must be a string"
  | trailingComma => "trailing comma"
  | trailingCharacters => "trailing characters"
  | invalidNumber => "invalid number"
  | numberOutOfRange => "number out of range"
  | invalidEscape => "invalid escape"
  | controlCharacter =>
    "control character (\\u0000-\\u001F) found while parsing a string"
  | loneSurrogate => "lone leading surrogate in hex escape"
  | unexpectedHexEnd => "unexpected end of hex escape"
  | recursionLimit => "recursion limit exceeded"

/-- The place where a text stops being JSON, with the error for each kind of reader. -/
structure Fault where
  /-- For a reader that needs a value there. -/
  read : SyntaxError
  /-- For a reader that passes over the value. -/
  skipped : SyntaxError
  /-- For a reader that needs a string or an object there. -/
  named : SyntaxError
deriving DecidableEq, Repr

/-- A fault that is the same error for every reader. -/
def Fault.always (e : SyntaxError) : Fault := ⟨e, e, e⟩

/-- A fault inside a literal or number, or in place of a value. -/
def Fault.unnamed (read skipped : SyntaxError) : Fault := ⟨read, skipped, .expectedValue⟩

end GraphCodec.Json
