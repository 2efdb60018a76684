import GraphCodec.Diagnostic.Queue
import Mathlib.Data.Finset.Card

/-!
# Queues that keep books

A `CountedQueue` counts the errors that it holds and remembers which problems it has taken in, where
a `DiagnosticQueue` looks through its diagnostics.  `CountedQueue.of` is the queue with the books of
a plain queue, and every call answers and does the same to both (`CountedQueue.call_of`).

A guarantee is handed out whatever becomes of the error that it is for.  An error beyond the limit
is dropped when there are errors already, and a repeated one mostly repeats an error; but it can
also repeat a warning or a note, and then no error need be there.  In all other cases there is an
error from then on until the queue is flushed (`CountedQueue.hasErrors?_of_emitError`).
-/

namespace GraphCodec

/-! ### Calls -/

/-- What tells problems apart. -/
structure ProblemKey where
  code : DiagnosticCode
  message : String
  context : List Frame
deriving DecidableEq

/-- Which problem a diagnostic is about. -/
def Diagnostic.key (d : Diagnostic) : ProblemKey := ⟨d.code, d.message, d.context⟩

/-- What can be asked of a queue. -/
inductive QueueCall where
  | add (d : Diagnostic)
  | emitError (d : Diagnostic)
  | flush

/-- What a queue answers. -/
inductive QueueAnswer where
  | kept (isKept : Bool)
  | guaranteed (guarantee : ErrorGuarantee)
  | flushed (diagnostics : List Diagnostic)

namespace DiagnosticQueue

variable {q : DiagnosticQueue} {a b d e : Diagnostic} {calls : List QueueCall}

/-- Carries out a call. -/
def call (q : DiagnosticQueue) : QueueCall → QueueAnswer × DiagnosticQueue
  | .add d => (.kept (q.add d).1, (q.add d).2)
  | .emitError d => (.guaranteed (q.emitError d).1, (q.emitError d).2)
  | .flush => (.flushed q.flush.1, q.flush.2)

/-- A queue after some calls. -/
def after (q : DiagnosticQueue) (calls : List QueueCall) : DiagnosticQueue :=
  calls.foldl (fun q c => (q.call c).2) q

/-- Two diagnostics are about the same problem exactly if their keys are the same. -/
private theorem sameProblem_iff : sameProblem a b ↔ a.key = b.key := by
  simp [sameProblem, Diagnostic.key, and_assoc]

/-- A diagnostic is repeated exactly if the queue drops repeated ones and holds one with its key. -/
theorem repeats_iff :
    q.repeats d ↔ q.config.deduplicate ∧ ∃ e ∈ q.diagnostics, d.key = e.key := by
  simp [repeats, sameProblem_iff]

/-- A queue tells of errors exactly if it holds one. -/
theorem hasErrors?_iff : q.hasErrors? = some .emitted ↔ ∃ e ∈ q.diagnostics, e.isError := by
  have hpos : 0 < q.errorCount ↔ ∃ e ∈ q.diagnostics, e.isError := List.countP_pos_iff
  rw [← hpos, hasErrors?]
  split
  case isTrue h => simp [h]
  case isFalse h => simp [h]

/-! ### Errors that stay -/

/-- Adding a diagnostic leaves those in front as they are. -/
private theorem diagnostics_prefix_add (q : DiagnosticQueue) (d : Diagnostic) :
    q.diagnostics <+: (q.add d).2.diagnostics := by
  unfold add
  split
  -- Beyond the limit, repeated, or added behind the others.
  · exact List.prefix_rfl
  · split
    · exact List.prefix_rfl
    · exact List.prefix_append _ _

/-- Only flushing takes diagnostics out of a queue. -/
private theorem diagnostics_prefix_after (q : DiagnosticQueue) (h : .flush ∉ calls) :
    q.diagnostics <+: (q.after calls).diagnostics := by
  induction calls generalizing q with
  | nil => exact List.prefix_rfl
  | cons c calls ih =>
    rw [List.mem_cons, not_or] at h
    refine List.IsPrefix.trans ?_ (ih (q.call c).2 h.2)
    -- A flush is excluded.
    cases c with
    | add d => exact diagnostics_prefix_add q d
    | emitError d => exact diagnostics_prefix_add q d
    | flush => exact absurd rfl h.1

/-- Without errors in the queue no limit is reached. -/
theorem limitReached_eq_false (h : ∀ e ∈ q.diagnostics, ¬e.isError) : q.limitReached = false := by
  have hcount : q.errorCount = 0 := List.countP_eq_zero.2 h
  simp only [limitReached, hcount, Bool.and_eq_false_iff, decide_eq_false_iff_not]
  omega

/-- Whether a queue takes an error for one of its warnings and notes, and has no errors. -/
structure Masks (q : DiagnosticQueue) (d : Diagnostic) : Prop where
  deduplicate : q.config.deduplicate
  repeated : ∃ e ∈ q.diagnostics, d.key = e.key
  no_errors : ∀ e ∈ q.diagnostics, ¬e.isError

/-- After an error has been added there is an error in the queue, unless the queue has taken it for
a warning or note. -/
private theorem exists_error_add_iff (hd : d.isError) :
    (∃ e ∈ (q.add d).2.diagnostics, e.isError) ↔ ¬q.Masks d := by
  by_cases herror : ∃ e ∈ q.diagnostics, e.isError
  -- An error that is there already stays there.
  · obtain ⟨e, he, hisError⟩ := herror
    refine iff_of_true ⟨e, (diagnostics_prefix_add q d).subset he, hisError⟩ fun hmasks => ?_
    exact hmasks.no_errors e he hisError
  -- Without errors the limit is not reached, so only repetition decides.
  · have hnone : ∀ e ∈ q.diagnostics, ¬e.isError := fun e he hisError => herror ⟨e, he, hisError⟩
    have hlimit : ¬(d.isError && q.limitReached) := by simp [limitReached_eq_false hnone]
    rw [add, if_neg hlimit]
    by_cases hrepeats : q.repeats d
    · rw [if_pos hrepeats]
      obtain ⟨hdedup, hrepeated⟩ := repeats_iff.1 hrepeats
      exact iff_of_false herror fun hno => hno ⟨hdedup, hrepeated, hnone⟩
    · rw [if_neg hrepeats]
      refine iff_of_true ⟨d, List.mem_append_right _ (List.mem_singleton_self d), hd⟩ ?_
      exact fun hmasks => hrepeats (repeats_iff.2 ⟨hmasks.deduplicate, hmasks.repeated⟩)

/-- A queue that takes an error for a warning or note does not change. -/
private theorem Masks.add_eq (h : q.Masks d) : q.add d = (false, q) := by
  have hlimit : ¬(d.isError && q.limitReached) := by simp [limitReached_eq_false h.no_errors]
  rw [add, if_neg hlimit, if_pos (repeats_iff.2 ⟨h.deduplicate, h.repeated⟩)]

end DiagnosticQueue

/-! ### Books -/

/-- A queue that counts its errors and remembers its problems. -/
structure CountedQueue extends DiagnosticQueue where
  /-- The number of errors in the queue. -/
  errors : Nat
  /-- The problems in the queue, if repeated ones are dropped. -/
  seen : Finset ProblemKey

namespace CountedQueue

variable {q : CountedQueue} {d : Diagnostic}

/-- A queue without diagnostics. -/
def empty (config : QueueConfig) : CountedQueue :=
  { DiagnosticQueue.empty config with errors := 0, seen := ∅ }

/-- Whether no further errors are kept. -/
def limitReached (q : CountedQueue) : Bool :=
  0 < q.config.errorLimit && q.config.errorLimit ≤ q.errors

/-- A guarantee, if there is an error in the queue. -/
def hasErrors? (q : CountedQueue) : Option ErrorGuarantee :=
  if 0 < q.errors then some .emitted else none

/-- Adds a diagnostic, and says whether it was kept. -/
def add (q : CountedQueue) (d : Diagnostic) : Bool × CountedQueue :=
  if d.isError && q.limitReached then (false, { q with dropped := q.dropped + 1 })
  else if q.config.deduplicate && d.key ∈ q.seen then (false, q)
  else
    (true, { q with
      diagnostics := q.diagnostics ++ [d]
      errors := if d.isError then q.errors + 1 else q.errors
      seen := if q.config.deduplicate then insert d.key q.seen else q.seen })

/-- Adds a diagnostic that is meant as an error, and hands out a guarantee in any case. -/
def emitError (q : CountedQueue) (d : Diagnostic) : ErrorGuarantee × CountedQueue :=
  (.emitted, (q.add d).2)

/-- Takes all diagnostics out of a queue, and clears its books. -/
def flush (q : CountedQueue) : List Diagnostic × CountedQueue :=
  (q.diagnostics ++ if 0 < q.dropped then [.tooManyErrors q.errors q.dropped] else [],
    { q with diagnostics := [], dropped := 0, errors := 0, seen := ∅ })

/-- Carries out a call. -/
def call (q : CountedQueue) : QueueCall → QueueAnswer × CountedQueue
  | .add d => (.kept (q.add d).1, (q.add d).2)
  | .emitError d => (.guaranteed (q.emitError d).1, (q.emitError d).2)
  | .flush => (.flushed q.flush.1, q.flush.2)

/-- A queue after some calls. -/
def after (q : CountedQueue) (calls : List QueueCall) : CountedQueue :=
  calls.foldl (fun q c => (q.call c).2) q

/-- The queue with the books of a plain queue. -/
def of (q : DiagnosticQueue) : CountedQueue :=
  { q with
    errors := q.errorCount
    seen := if q.config.deduplicate then (q.diagnostics.map Diagnostic.key).toFinset else ∅ }

section Of

variable (q : DiagnosticQueue) (d : Diagnostic)

private theorem empty_eq (config : QueueConfig) : empty config = of (.empty config) := by
  simp [empty, of, DiagnosticQueue.empty, DiagnosticQueue.errorCount]

private theorem limitReached_of : (of q).limitReached = q.limitReached := rfl

private theorem hasErrors?_of : (of q).hasErrors? = q.hasErrors? := rfl

/-- A problem is among those seen exactly if the diagnostic is repeated. -/
private theorem mem_seen_of :
    ((of q).config.deduplicate && decide (d.key ∈ (of q).seen)) = q.repeats d := by
  rw [Bool.eq_iff_iff, DiagnosticQueue.repeats_iff]
  cases h : q.config.deduplicate <;> simp [of, h, eq_comm]

/-- Adding a diagnostic does the same to the books as to the queue. -/
private theorem add_of : (of q).add d = ((q.add d).1, of (q.add d).2) := by
  unfold add DiagnosticQueue.add
  rw [limitReached_of, mem_seen_of]
  split
  -- Dropped, skipped or added, each with its own books.
  · rfl
  · split
    · rfl
    · cases hd : d.isError <;> cases hq : q.config.deduplicate <;>
        simp [of, DiagnosticQueue.errorCount, hd, hq]

/-- Flushing does the same to the books as to the queue. -/
theorem flush_of : (of q).flush = (q.flush.1, of q.flush.2) := by
  rw [show of q.flush.2 = empty q.config from (empty_eq q.config).symm]
  rfl

/-- Every call answers and does the same with books and without. -/
theorem call_of (c : QueueCall) : (of q).call c = ((q.call c).1, of (q.call c).2) := by
  cases c with
  | add d => simp only [call, DiagnosticQueue.call, add_of]
  | emitError d => simp only [call, DiagnosticQueue.call, emitError, add_of]; rfl
  | flush => simp only [call, DiagnosticQueue.call, flush_of]

/-- Any calls do the same with books and without. -/
private theorem after_of (calls : List QueueCall) : (of q).after calls = of (q.after calls) := by
  induction calls generalizing q with
  | nil => rfl
  | cons c calls ih =>
    show ((of q).call c).2.after calls = of ((q.call c).2.after calls)
    rw [call_of, ih]

end Of

/-- The queue after some calls, beginning with an empty one. -/
def run (config : QueueConfig) (calls : List QueueCall) : CountedQueue :=
  (empty config).after calls

/-- The books of a queue are always those of the plain queue after the same calls. -/
theorem run_eq (config : QueueConfig) (calls : List QueueCall) :
    run config calls = of ((DiagnosticQueue.empty config).after calls) := by
  rw [run, empty_eq, after_of]

/-- Emitting an error adds it. -/
private theorem emitError_of (q : DiagnosticQueue) (d : Diagnostic) :
    ((of q).emitError d).2 = of (q.add d).2 := by
  rw [emitError, add_of]

/-! ### Guarantees -/

/-- Whatever has been called, the guarantee for an error is good: from then on until the queue is
flushed its books tell of an error, and there is one.  The only exception is an error in a queue
without errors that drops repeated diagnostics and holds a warning or note with the code, message
and context of the error; then the error is dropped, and the queue goes on without errors. -/
theorem hasErrors?_of_emitError (config : QueueConfig) (before : List QueueCall) (d : Diagnostic)
    (hd : d.isError) :
    (¬(run config before).Masks d → ∀ calls, .flush ∉ calls →
      (((run config before).emitError d).2.after calls).hasErrors? = some .emitted ∧
        ∃ e ∈ (((run config before).emitError d).2.after calls).diagnostics, e.isError) ∧
    ((run config before).Masks d →
      ((run config before).emitError d).2 = run config before ∧
        (run config before).hasErrors? = none) := by
  rw [run_eq, emitError_of]
  constructor
  · intro hmasks calls hcalls
    -- The call leaves an error in the queue, and later ones only add behind it.
    obtain ⟨e, he, hisError⟩ := (DiagnosticQueue.exists_error_add_iff hd).2 hmasks
    have hstays := (DiagnosticQueue.diagnostics_prefix_after _ hcalls).subset he
    rw [after_of, hasErrors?_of]
    exact ⟨DiagnosticQueue.hasErrors?_iff.2 ⟨e, hstays, hisError⟩, e, hstays, hisError⟩
  -- An error that is masked changes nothing, and there are no errors to tell of.
  · intro hmasks
    have hadd := DiagnosticQueue.Masks.add_eq hmasks
    refine ⟨congrArg (fun found => of found.2) hadd, ?_⟩
    rw [hasErrors?_of, Option.eq_none_iff_forall_ne_some]
    rintro ⟨⟩ hsome
    obtain ⟨e, he, hisError⟩ := DiagnosticQueue.hasErrors?_iff.1 hsome
    exact hmasks.no_errors e he hisError

/-- A warning about a contradiction. -/
def oddity : Diagnostic := { Diagnostic.internalError "odd" with severity := .warning }

/-- Once the queue has been flushed, the warning does not mask the error, which is then kept though
it is repeated. -/
theorem hasErrors?_of_emitError_flushed :
    ((((run .standard [.add oddity, .flush]).emitError (.internalError "odd")).2.after
      [.add oddity, .emitError (.internalError "odd")]).hasErrors? = some .emitted) :=
  ((hasErrors?_of_emitError .standard [.add oddity, .flush] (.internalError "odd") rfl).1
    (fun hmasks => by simpa [run, after, call, add, flush, empty] using hmasks.repeated)
    [.add oddity, .emitError (.internalError "odd")] (by simp)).1

/-- An error that repeats a warning is dropped, and the guarantee that is handed out for it holds of
no error. -/
theorem not_hasErrors?_of_emitError :
    ¬∀ (config : QueueConfig) (before calls : List QueueCall) (d : Diagnostic), d.isError →
      .flush ∉ calls →
        (((run config before).emitError d).2.after calls).hasErrors? = some .emitted := by
  intro h
  -- The warning masks the error, so the queue stays without errors.
  have hnone : (((run .standard [.add oddity]).emitError (.internalError "odd")).2.after
      []).hasErrors? = none := by decide +kernel
  have hsome := h .standard [.add oddity] [] (.internalError "odd") rfl (List.not_mem_nil)
  rw [hnone] at hsome
  cases hsome

end CountedQueue

end GraphCodec
