import GraphCodec.Codec.Ref
import GraphCodec.Json.Basic
import GraphCodec.Json.SyntaxError
import GraphCodec.Calendar.Instant

/-!
# Codec errors

What can go wrong when a value is encoded or decoded, and the message for each.
-/

namespace GraphCodec

/-- What a codec looks for. -/
inductive Wanted where
  | scalar (s : Scalar)
  | string
  | date
  | timestamp
  | localDate
  | enum
  | variantName
  | sequence (shape : Shape)
  | map
  | mapKey
  | object
deriving DecidableEq, Repr

/-- The name of what a codec looks for. -/
def Wanted.name : Wanted → String
  | .scalar s => s.name
  | .string => "string"
  | .date => "date"
  | .timestamp => "timestamp"
  | .localDate => "local date"
  | .enum => "enum"
  | .variantName => "enum variant name"
  | .sequence shape => shape.name
  | .map => "map"
  | .mapKey => "string map key"
  | .object => "object"

/-- Why a text or number is not a date. -/
inductive DateProblem where
  | notMillis
  | date (e : Calendar.DateError)
  | timestamp (e : Calendar.Timestamp.Error)
deriving DecidableEq, Repr

/-- The message of a problem with a date. -/
def DateProblem.message : DateProblem → String
  | notMillis => "expected epoch milliseconds"
  | date e => e.message
  | timestamp e => e.message

/-- What went wrong when a value was encoded or decoded. -/
inductive CodecError where
  | malformedNumber (s : Scalar) (text : String)
  | malformedDate (text : String) (reason : DateProblem)
  | duplicateKey (text : String)
  | mismatchedMapArrays (keys values : Nat)
  | unexpectedJson (wanted : Wanted) (found : Json.Kind)
  | unexpectedValue (wanted : Wanted) (found : Value.Kind)
  | unknownVariant (typeName name : String)
  | unknownCodec (name : String)
  | nonFiniteNumber (s : Scalar)
  | json (e : Json.SyntaxError)
deriving DecidableEq, Repr

/-- The message of an error. -/
def CodecError.message : CodecError → String
  | malformedNumber s text => "malformed " ++ s.name ++ " `" ++ text ++ "`"
  | malformedDate text reason => "malformed date `" ++ text ++ "`: " ++ reason.message
  | duplicateKey text => "duplicate map key " ++ text
  | mismatchedMapArrays keys values =>
    "map has " ++ Decimal.natText keys ++ " keys but " ++ Decimal.natText values ++ " values"
  | unexpectedJson wanted found => "expected " ++ wanted.name ++ ", found JSON " ++ found.name
  | unexpectedValue wanted found => "expected " ++ wanted.name ++ " value, found " ++ found.name
  | unknownVariant typeName name => "`" ++ name ++ "` is not a variant of `" ++ typeName ++ "`"
  | unknownCodec name => "no codec registered for `" ++ name ++ "`"
  | nonFiniteNumber s => "cannot encode non-finite " ++ s.name ++ " as JSON"
  | json e => "invalid JSON: " ++ e.message

end GraphCodec
