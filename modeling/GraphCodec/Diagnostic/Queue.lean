import GraphCodec.Diagnostic.Basic

/-!
# Diagnostic queues

A queue collects diagnostics in the order in which they are found.  It drops errors beyond a limit,
and counts them; and it drops a diagnostic that has the code, message and context of one that is in
the queue.  The limit is looked at first, so a repeated error beyond the limit counts as dropped.
-/

namespace GraphCodec

/-- The rules of a queue. -/
structure QueueConfig where
  /-- The greatest number of errors that are kept; zero stands for any number. -/
  errorLimit : Nat
  /-- Whether repeated diagnostics are dropped. -/
  deduplicate : Bool
deriving DecidableEq, Repr

/-- The rules of a queue that is not told otherwise. -/
def QueueConfig.standard : QueueConfig := ⟨50, true⟩

/-- What is handed out when an error has been put into a queue. -/
inductive ErrorGuarantee where
  | emitted
deriving DecidableEq, Repr

/-- The text of a guarantee. -/
def ErrorGuarantee.text : ErrorGuarantee → String
  | .emitted => "error(s) emitted"

/-- The diagnostics that have been found. -/
structure DiagnosticQueue where
  config : QueueConfig
  /-- In the order in which they were found. -/
  diagnostics : List Diagnostic
  /-- The number of errors that were dropped because of the limit. -/
  dropped : Nat
deriving DecidableEq, Repr

namespace DiagnosticQueue

/-- A queue without diagnostics. -/
def empty (config : QueueConfig) : DiagnosticQueue := ⟨config, [], 0⟩

/-- The number of errors in the queue. -/
def errorCount (q : DiagnosticQueue) : Nat := q.diagnostics.countP (·.isError)

/-- Whether no further errors are kept. -/
def limitReached (q : DiagnosticQueue) : Bool :=
  0 < q.config.errorLimit && q.config.errorLimit ≤ q.errorCount

/-- A guarantee, if there is an error in the queue. -/
def hasErrors? (q : DiagnosticQueue) : Option ErrorGuarantee :=
  if 0 < q.errorCount then some .emitted else none

/-- Whether two diagnostics are the same problem reached in the same way. -/
def sameProblem (a b : Diagnostic) : Bool :=
  a.code = b.code && a.message = b.message && a.context = b.context

/-- Whether a diagnostic repeats one that is in the queue. -/
def repeats (q : DiagnosticQueue) (d : Diagnostic) : Bool :=
  q.config.deduplicate && q.diagnostics.any (sameProblem d)

/-- Adds a diagnostic, and says whether it was kept. -/
def add (q : DiagnosticQueue) (d : Diagnostic) : Bool × DiagnosticQueue :=
  if d.isError && q.limitReached then (false, { q with dropped := q.dropped + 1 })
  else if q.repeats d then (false, q)
  else (true, { q with diagnostics := q.diagnostics ++ [d] })

/-- Adds a diagnostic that is meant as an error, and hands out a guarantee in any case. -/
def emitError (q : DiagnosticQueue) (d : Diagnostic) : ErrorGuarantee × DiagnosticQueue :=
  (.emitted, (q.add d).2)

/-- Takes all diagnostics out of a queue.  The last one says how many errors were dropped, if any
were. -/
def flush (q : DiagnosticQueue) : List Diagnostic × DiagnosticQueue :=
  (q.diagnostics ++ if 0 < q.dropped then [.tooManyErrors q.errorCount q.dropped] else [],
    empty q.config)

end DiagnosticQueue

end GraphCodec
