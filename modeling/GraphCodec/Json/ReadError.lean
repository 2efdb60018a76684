import GraphCodec.Json.SyntaxError
import GraphCodec.Decimal.Basic

/-!
# Errors of typed readers

What can be wrong with a JSON text that is to be read as a value of a certain form: it may not be
JSON, or be JSON of another form.
-/

namespace GraphCodec.Json

/-- What is wrong with a text that is to be read as a value of a certain form. -/
inductive ReadError where
  /-- The text is not JSON. -/
  | malformed (e : SyntaxError)
  | wrongType (found expected : String)
  | wrongValue (found expected : String)
  | wrongLength (length : Nat) (expected : String)
  | unknownField (name : String) (known : List String)
  | unknownVariant (name : String) (known : List String)
  | missingField (name : String)
  | duplicateField (name : String)
deriving DecidableEq, Repr

namespace ReadError

/-- A name in backquotes. -/
def quoted (name : String) : String := "`" ++ name ++ "`"

/-- A list of alternatives. -/
def alternatives : List String → String
  | [] => ""
  | [a] => quoted a
  | [a, b] => quoted a ++ " or " ++ quoted b
  | names => "one of " ++ String.intercalate ", " (names.map quoted)

/-- The message of an error. -/
def message : ReadError → String
  | malformed e => e.message
  | wrongType found expected => "invalid type: " ++ found ++ ", expected " ++ expected
  | wrongValue found expected => "invalid value: " ++ found ++ ", expected " ++ expected
  | wrongLength n expected =>
    "invalid length " ++ Decimal.natText n ++ ", expected " ++ expected
  | unknownField name known =>
    "unknown field " ++ quoted name ++ ", expected " ++ alternatives known
  | unknownVariant name known =>
    "unknown variant " ++ quoted name ++ ", expected " ++ alternatives known
  | missingField name => "missing field " ++ quoted name
  | duplicateField name => "duplicate field " ++ quoted name

end ReadError

end GraphCodec.Json
