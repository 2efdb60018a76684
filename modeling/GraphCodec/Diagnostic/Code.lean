/-!
# Diagnostic codes

Every diagnostic has a code by which it can be searched for.  The first digit tells the phase: 0 for
the request, 1 for the classification of types, 9 for the generator itself.
-/

namespace GraphCodec

/-- The classes of problems. -/
inductive DiagnosticCode where
  /-- A root is not a class, enum or container. -/
  | unknownRoot
  /-- A type has no codec. -/
  | unsupportedType
  /-- A container is used without type arguments. -/
  | missingTypeArguments
  /-- A type without instances is used where an instance is needed. -/
  | abstractNotAllowed
  /-- The generator contradicts itself. -/
  | internalError
  | tooManyErrors
deriving DecidableEq, Repr

namespace DiagnosticCode

/-- All codes, in ascending order. -/
def all : List DiagnosticCode :=
  [unknownRoot, unsupportedType, missingTypeArguments, abstractNotAllowed, internalError,
    tooManyErrors]

/-- The text of a code. -/
def text : DiagnosticCode → String
  | unknownRoot => "E0001"
  | unsupportedType => "E1001"
  | missingTypeArguments => "E1002"
  | abstractNotAllowed => "E1003"
  | internalError => "E9001"
  | tooManyErrors => "E9002"

/-- The name of a class of problems. -/
def name : DiagnosticCode → String
  | unknownRoot => "UnknownRoot"
  | unsupportedType => "UnsupportedType"
  | missingTypeArguments => "MissingTypeArguments"
  | abstractNotAllowed => "AbstractNotAllowedHere"
  | internalError => "InternalError"
  | tooManyErrors => "TooManyErrors"

/-- Whether a problem is one of the generator itself. -/
def isInternal : DiagnosticCode → Bool
  | internalError | tooManyErrors => true
  | _ => false

end DiagnosticCode

end GraphCodec
