import GraphCodec.Decimal.Basic
import GraphCodec.Diagnostic.Code

/-!
# Diagnostics

Types have no place in a text, so a diagnostic carries instead the chain of types and fields through
which the problem was reached, outermost first.  It is shown innermost first.
-/

namespace GraphCodec

/-- How bad a problem is. -/
inductive Severity where
  | error
  | warning
  | note
deriving DecidableEq, Repr

/-- The word for a severity. -/
def Severity.name : Severity → String
  | .error => "error"
  | .warning => "warning"
  | .note => "note"

/-- One step on the way to a problem. -/
inductive Frame where
  /-- A codec was wanted for this type. -/
  | root (name : String)
  | type (name : String)
  | field (owner name : String)
  /-- A type argument, or the component of an array. -/
  | argument (name : String)
deriving DecidableEq, Repr

/-- The text of a step. -/
def Frame.text : Frame → String
  | .root name => "requested as root `" ++ name ++ "`"
  | .type name => "in type `" ++ name ++ "`"
  | .field owner name => "in field `" ++ owner ++ "." ++ name ++ "`"
  | .argument name => "in type argument `" ++ name ++ "`"

/-- A problem that is reported. -/
structure Diagnostic where
  code : DiagnosticCode
  severity : Severity
  message : String
  /-- The way to the problem, outermost step first. -/
  context : List Frame
  notes : List String
deriving DecidableEq, Repr

namespace Diagnostic

/-- Whether the problem is an error. -/
def isError (d : Diagnostic) : Bool := d.severity = .error

/-- The step at which the problem sits. -/
def innermost? (d : Diagnostic) : Option Frame := d.context.getLast?

/-- The text of a diagnostic: its message, the way back to the root, and its notes. -/
def text (d : Diagnostic) : String :=
  d.severity.name ++ "[" ++ d.code.text ++ "]: " ++ d.message ++
    String.join (d.context.reverse.map fun f => "\n  " ++ f.text) ++
    String.join (d.notes.map fun n => "\n  = note: " ++ n)

/-- An error that has not been given a context. -/
def error (code : DiagnosticCode) (message : String) : Diagnostic :=
  ⟨code, .error, message, [], []⟩

/-- A type without a codec. -/
def unsupportedType (typeName reason : String) : Diagnostic :=
  error .unsupportedType ("unsupported type `" ++ typeName ++ "`: " ++ reason)

/-- A container without type arguments. -/
def missingTypeArguments (typeName : String) : Diagnostic :=
  { error .missingTypeArguments ("container `" ++ typeName ++ "` is used without type arguments")
    with notes := ["element, key and value codecs are chosen from the type arguments"] }

/-- A type without instances in a role that needs one. -/
def abstractNotAllowed (typeName role : String) : Diagnostic :=
  error .abstractNotAllowed ("`" ++ typeName ++ "` cannot be used as a " ++ role ++
    ": it is abstract and has no concrete subtype")

/-- A root that no codec is generated for. -/
def unknownRoot (typeName : String) : Diagnostic :=
  error .unknownRoot ("`" ++ typeName ++
    "` cannot be a generation root: expected a class, enum or container")

/-- A contradiction in the generator. -/
def internalError (problem : String) : Diagnostic :=
  error .internalError ("internal generator error: " ++ problem)

/-- The summary of errors that were dropped. -/
def tooManyErrors (shown dropped : Nat) : Diagnostic :=
  error .tooManyErrors ("aborting after " ++ Decimal.natText shown ++ " errors; " ++
    Decimal.natText dropped ++ " more not shown")

end Diagnostic

end GraphCodec
