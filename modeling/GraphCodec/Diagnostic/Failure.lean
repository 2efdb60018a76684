import GraphCodec.Diagnostic.Queue

/-!
# Failed generation

When anything that is reachable from the roots has no codec, generation yields no codecs at all, but
every diagnostic that was collected.
-/

namespace GraphCodec

/-- The diagnostics for which no codecs were generated. -/
structure GenerationFailure where
  diagnostics : List Diagnostic
deriving DecidableEq, Repr

namespace GenerationFailure

/-- The number of errors. -/
def errorCount (f : GenerationFailure) : Nat := f.diagnostics.countP (·.isError)

/-- Whether some diagnostic has a code. -/
def hasCode (f : GenerationFailure) (code : DiagnosticCode) : Bool :=
  f.diagnostics.any (·.code = code)

/-- The line that sums up the failure. -/
def message (f : GenerationFailure) : String :=
  "codec generation failed with " ++ Decimal.natText f.errorCount ++ " error(s)"

/-- All diagnostics, each with an empty line after it, and the line that sums them up. -/
def report (f : GenerationFailure) : String :=
  String.join (f.diagnostics.map fun d => d.text ++ "\n\n") ++ f.message

end GenerationFailure

end GraphCodec
