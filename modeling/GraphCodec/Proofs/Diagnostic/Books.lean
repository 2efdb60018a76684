import GraphCodec.Proofs.Diagnostic.Summary
import Mathlib.Data.List.DropRight

/-!
# The books of a queue

A queue keeps four books side by side: what it holds, how many errors that is, which problems they
are about, and how many errors it has dropped because of its limit.  Each call changes some of them
and flushing clears them all, so a queue knows nothing of what was before it was last flushed
(`CountedQueue.run_sinceFlush`).  `CountedQueue.Accounts` says what the books have to do with each
other and with what has been added since then; every call keeps it (`CountedQueue.Accounts.add`,
`CountedQueue.accounts_run`).  From it follows what is flushed, whatever has been called
(`CountedQueue.books_of_run`).
-/

namespace GraphCodec

/-! ### Calls since the last flush -/

namespace QueueCall

variable {c : QueueCall} {calls : List QueueCall}

/-- Whether a call flushes the queue. -/
def isFlush : QueueCall → Bool
  | .flush => true
  | _ => false

/-- The diagnostic that a call adds. -/
def diagnostic? : QueueCall → Option Diagnostic
  | .add d => some d
  | .emitError d => some d
  | .flush => none

/-- The diagnostics that some calls add, in order. -/
def added (calls : List QueueCall) : List Diagnostic := calls.filterMap diagnostic?

/-- The last of some calls, those behind the last flush. -/
def sinceFlush (calls : List QueueCall) : List QueueCall := calls.rtakeWhile (!·.isFlush)

theorem sinceFlush_flush (calls : List QueueCall) : sinceFlush (calls ++ [.flush]) = [] :=
  List.rtakeWhile_concat_neg _ _ _ (by simp [isFlush])

/-- Any other call is one more since the last flush. -/
theorem sinceFlush_append (h : c.isFlush = false) :
    sinceFlush (calls ++ [c]) = sinceFlush calls ++ [c] :=
  List.rtakeWhile_concat_pos _ _ _ (by simp [h])

/-- A call that adds a diagnostic does not flush. -/
theorem isFlush_of_diagnostic? {d : Diagnostic} (h : c.diagnostic? = some d) :
    c.isFlush = false := by
  cases c <;> simp [diagnostic?, isFlush] at h ⊢

/-- A call adds a diagnostic or flushes the queue. -/
theorem eq_flush_or_exists (c : QueueCall) : c = .flush ∨ ∃ d, c.diagnostic? = some d := by
  cases c <;> simp [diagnostic?]

end QueueCall

namespace CountedQueue

open QueueCall

variable {config : QueueConfig} {q : CountedQueue} {c : QueueCall} {d : Diagnostic}
  {calls : List QueueCall} {ds cut : List Diagnostic}

/-- Both calls that take a diagnostic add it. -/
theorem call_of_diagnostic? (q : CountedQueue) (h : c.diagnostic? = some d) :
    (q.call c).2 = (q.add d).2 := by
  cases c <;> simp_all [diagnostic?, call, emitError]

/-- More calls go on where the others ended. -/
private theorem after_append (q : CountedQueue) (calls more : List QueueCall) :
    q.after (calls ++ more) = (q.after calls).after more :=
  List.foldl_append

/-- The last of some calls is made on what the others left. -/
theorem run_concat (config : QueueConfig) (calls : List QueueCall) (c : QueueCall) :
    run config (calls ++ [c]) = ((run config calls).call c).2 :=
  after_append _ calls [c]

private theorem flush_snd (q : CountedQueue) : q.flush.2 = empty q.config := rfl

/-- Adding a diagnostic does not change the configuration. -/
private theorem config_add (q : CountedQueue) (d : Diagnostic) : (q.add d).2.config = q.config := by
  unfold add
  split
  · rfl
  · split <;> rfl

/-- No calls change the configuration. -/
private theorem config_run (config : QueueConfig) (calls : List QueueCall) :
    (run config calls).config = config := by
  induction calls using List.reverseRecOn with
  | nil => rfl
  | append_singleton calls c ih =>
    rw [run_concat]
    rcases eq_flush_or_exists c with rfl | ⟨d, hd⟩
    · exact ih
    · rw [call_of_diagnostic? _ hd, config_add, ih]

/-- A queue that is flushed is as it was in the beginning. -/
theorem run_flush (config : QueueConfig) (calls : List QueueCall) :
    run config (calls ++ [.flush]) = empty config := by
  rw [run_concat]
  show (run config calls).flush.2 = _
  rw [flush_snd, config_run]

/-- A queue knows nothing of what was before its last flush. -/
theorem run_sinceFlush (config : QueueConfig) (calls : List QueueCall) :
    run config (sinceFlush calls) = run config calls := by
  induction calls using List.reverseRecOn with
  | nil => rfl
  | append_singleton calls c ih =>
    -- A flush on either side leaves the empty queue.
    rcases eq_flush_or_exists c with rfl | ⟨d, hd⟩
    · rw [sinceFlush_flush, run_flush]
      rfl
    -- Any other call is made on the same queue.
    · rw [sinceFlush_append (isFlush_of_diagnostic? hd), run_concat, run_concat, ih]

/-! ### Errors beyond the limit -/

/-- The errors that are added to a queue in the course of some calls when it has reached its
limit. -/
def beyondLimit (q : CountedQueue) : List QueueCall → List Diagnostic
  | [] => []
  | c :: calls =>
    (c.diagnostic?.filter fun d => d.isError && q.limitReached).toList ++
      (q.call c).2.beyondLimit calls

/-- What is dropped by calls behind others is dropped by them on what the others left. -/
private theorem beyondLimit_append (q : CountedQueue) (calls more : List QueueCall) :
    q.beyondLimit (calls ++ more) = q.beyondLimit calls ++ (q.after calls).beyondLimit more := by
  induction calls generalizing q with
  | nil => rfl
  | cons c calls ih =>
    rw [List.cons_append, beyondLimit, beyondLimit, ih, List.append_assoc]
    rfl

/-- The errors that a queue has dropped because of its limit since it was last flushed. -/
def suppressed (config : QueueConfig) (calls : List QueueCall) : List Diagnostic :=
  (empty config).beyondLimit (sinceFlush calls)

/-- After a flush nothing has been dropped. -/
private theorem suppressed_flush (config : QueueConfig) (calls : List QueueCall) :
    suppressed config (calls ++ [.flush]) = [] := by
  rw [suppressed, sinceFlush_flush, beyondLimit]

/-- An error that is added when the limit has been reached is dropped. -/
theorem suppressed_append (hd : c.diagnostic? = some d) :
    suppressed config (calls ++ [c]) =
      suppressed config calls ++
        if d.isError && (run config calls).limitReached then [d] else [] := by
  -- The calls since the last flush leave the same queue as all of them.
  have hqueue : (empty config).after (sinceFlush calls) = run config calls :=
    run_sinceFlush config calls
  rw [suppressed, sinceFlush_append (isFlush_of_diagnostic? hd), beyondLimit_append, hqueue,
    beyondLimit, beyondLimit, hd, List.append_nil, suppressed]
  cases hlimit : d.isError && (run config calls).limitReached <;> simp [Option.filter, hlimit]

/-- Only flushing makes a queue forget the errors that it has dropped. -/
private theorem suppressed_prefix_append {later : List QueueCall} (h : .flush ∉ later) :
    suppressed config calls <+: suppressed config (calls ++ later) := by
  induction later using List.reverseRecOn with
  | nil => simp
  | append_singleton later c ih =>
    rw [List.mem_append, List.mem_singleton, not_or] at h
    -- The last call is no flush, so it only adds to what was dropped.
    obtain ⟨d, hd⟩ := (eq_flush_or_exists c).resolve_left (Ne.symm h.2)
    rw [← List.append_assoc, suppressed_append hd]
    exact (ih h.1).trans (List.prefix_append _ _)

/-- An error is one of those that were dropped exactly if it was added when the limit had been
reached, and the queue has not been flushed since. -/
private theorem mem_suppressed :
    d ∈ suppressed config calls ↔
      ∃ earlier c later, calls = earlier ++ c :: later ∧ .flush ∉ later ∧
        c.diagnostic? = some d ∧ d.isError ∧ (run config earlier).limitReached := by
  -- From left to right the induction is on the calls, last one first.
  constructor
  · induction calls using List.reverseRecOn with
    | nil => simp [suppressed, sinceFlush, beyondLimit]
    | append_singleton calls b ih =>
      intro hmem
      rcases eq_flush_or_exists b with rfl | ⟨e, hb⟩
      · simp [suppressed_flush] at hmem
      · rw [suppressed_append hb, List.mem_append] at hmem
        rcases hmem with hold | hnew
        · -- What was dropped before stays so, since the last call does not flush the queue.
          obtain ⟨earlier, c, later, rfl, hflush, hd⟩ := ih hold
          have hne : b ≠ .flush := fun heq => by simp [heq, diagnostic?] at hb
          refine ⟨earlier, c, later ++ [b], by simp, ?_, hd⟩
          simp [hflush, hne.symm]
        -- The last call itself has dropped the error.
        · split at hnew
          case isTrue hlimit =>
            obtain rfl := List.mem_singleton.1 hnew
            rw [Bool.and_eq_true] at hlimit
            exact ⟨calls, b, [], rfl, List.not_mem_nil, hb, hlimit⟩
          case isFalse => cases hnew
  -- Conversely the error was dropped when it was added, and no later call flushes.
  · rintro ⟨earlier, c, later, rfl, hflush, hc, herror, hlimit⟩
    have hsplit : earlier ++ c :: later = (earlier ++ [c]) ++ later := by simp
    rw [hsplit]
    refine (suppressed_prefix_append hflush).subset ?_
    rw [suppressed_append hc, herror, hlimit]
    simp

/-! ### Accounts -/

/-- What the books of a queue say, if some diagnostics have been added to it, and some of these when
it had reached its limit. -/
structure Accounts (config : QueueConfig) (ds cut : List Diagnostic) (q : CountedQueue) :
    Prop where
  config_eq : q.config = config
  errors_eq : q.errors = q.diagnostics.countP (·.isError)
  errors_le : 0 < config.errorLimit → q.errors ≤ config.errorLimit
  seen_eq : q.seen = if config.deduplicate then problems q.diagnostics else ∅
  nodup : config.deduplicate → (q.diagnostics.map Diagnostic.key).Nodup
  sublist : q.diagnostics.Sublist ds
  dropped_eq : q.dropped = cut.length

namespace Accounts

/-- The books of an empty queue are in order. -/
private theorem empty (config : QueueConfig) : Accounts config [] [] (empty config) where
  config_eq := rfl
  errors_eq := rfl
  errors_le := fun _ => Nat.zero_le _
  seen_eq := by simp [CountedQueue.empty, DiagnosticQueue.empty, problems]
  nodup := fun _ => List.nodup_nil
  sublist := List.Sublist.slnil
  dropped_eq := rfl

/-- The limit is reached when there is one and as many errors are counted. -/
private theorem limitReached_iff (h : Accounts config ds cut q) :
    q.limitReached ↔ 0 < config.errorLimit ∧ config.errorLimit ≤ q.errors := by
  simp [limitReached, h.config_eq]

/-- A diagnostic is a repeated one if the queue holds one that is about the same problem. -/
theorem seen_iff (h : Accounts config ds cut q) :
    (q.config.deduplicate && d.key ∈ q.seen) ↔
      config.deduplicate ∧ ∃ e ∈ q.diagnostics, e.key = d.key := by
  rw [h.config_eq, h.seen_eq]
  cases config.deduplicate <;> simp [mem_problems]

/-- A diagnostic that the queue does not take leaves its books as they are. -/
theorem skip (h : Accounts config ds cut q) (d : Diagnostic) :
    Accounts config (ds ++ [d]) cut q :=
  { h with sublist := h.sublist.trans (List.sublist_append_left ds [d]) }

/-- An error beyond the limit is counted. -/
private theorem drop (h : Accounts config ds cut q) (d : Diagnostic) :
    Accounts config (ds ++ [d]) (cut ++ [d]) { q with dropped := q.dropped + 1 } :=
  { h.skip d with dropped_eq := by simp [h.dropped_eq] }

/-- A diagnostic that the queue takes goes into all books of what it holds. -/
private theorem keep (h : Accounts config ds cut q) (hlimit : ¬(d.isError && q.limitReached))
    (hnew : ¬(q.config.deduplicate && d.key ∈ q.seen)) :
    Accounts config (ds ++ [d]) cut
      { q with
        diagnostics := q.diagnostics ++ [d]
        errors := if d.isError then q.errors + 1 else q.errors
        seen := if q.config.deduplicate then insert d.key q.seen else q.seen } where
  config_eq := h.config_eq
  -- The error, if it is one, is counted.
  errors_eq := by
    cases hd : d.isError <;> simp [h.errors_eq, hd]
  errors_le := by
    intro hpos
    have hle := h.errors_le hpos
    rw [Bool.and_eq_true, h.limitReached_iff] at hlimit
    -- An error is only taken below the limit, and nothing else is counted.
    show (if d.isError then q.errors + 1 else q.errors) ≤ _
    split
    case isTrue hd =>
      have hlt : ¬config.errorLimit ≤ q.errors := fun hge => hlimit ⟨hd, hpos, hge⟩
      omega
    case isFalse => exact hle
  -- Its problem is noted if the queue drops repeated ones.
  seen_eq := by
    show (if q.config.deduplicate then insert d.key q.seen else q.seen) = _
    rw [h.config_eq, h.seen_eq]
    cases config.deduplicate
    · rfl
    · simp [problems]
  -- The problem is new, so it differs from those of all diagnostics that are held.
  nodup := by
    intro hdedup
    have hne : ∀ e ∈ q.diagnostics, e.key ≠ d.key := fun e he heq =>
      hnew (h.seen_iff.2 ⟨hdedup, e, he, heq⟩)
    rw [List.map_append, List.nodup_append]
    simpa [h.nodup hdedup] using hne
  sublist := h.sublist.append (List.Sublist.refl [d])
  dropped_eq := h.dropped_eq

/-- Adding a diagnostic keeps the books in order. -/
theorem add (h : Accounts config ds cut q) (d : Diagnostic) :
    Accounts config (ds ++ [d]) (cut ++ if d.isError && q.limitReached then [d] else [])
      (q.add d).2 := by
  unfold CountedQueue.add
  split
  -- An error beyond the limit is dropped.
  case isTrue hlimit =>
    exact h.drop d
  case isFalse hlimit =>
    rw [List.append_nil]
    split
    -- A repeated diagnostic is skipped.
    case isTrue => exact h.skip d
    case isFalse hnew => exact h.keep hlimit hnew

/-- A warning or note is taken if the queue holds nothing that is about the same problem. -/
private theorem add_of_new (h : Accounts config ds cut q) (hd : ¬d.isError)
    (hnew : ∀ e ∈ q.diagnostics, e.key ≠ d.key) :
    (q.add d).1 = true ∧ (q.add d).2.diagnostics = q.diagnostics ++ [d] := by
  have hseen : ¬(q.config.deduplicate && d.key ∈ q.seen) := fun hseen => by
    obtain ⟨-, e, he, heq⟩ := h.seen_iff.1 hseen
    exact hnew e he heq
  rw [CountedQueue.add, if_neg (by simp [hd]), if_neg hseen]
  exact ⟨rfl, rfl⟩

/-- What is flushed, with the number of errors that were dropped. -/
private theorem flush_eq (h : Accounts config ds cut q) :
    q.flush =
      (q.diagnostics ++ if 0 < cut.length then [.tooManyErrors q.errors cut.length] else [],
        CountedQueue.empty config) := by
  rw [← h.config_eq, ← h.dropped_eq]
  rfl

end Accounts

/-- The books of a queue are in order after any calls. -/
theorem accounts_run (config : QueueConfig) (calls : List QueueCall) :
    Accounts config (added (sinceFlush calls)) (suppressed config calls) (run config calls) := by
  -- The last call flushes the queue, or it adds a diagnostic to the queue after the other calls.
  induction calls using List.reverseRecOn with
  | nil => exact Accounts.empty config
  | append_singleton calls c ih =>
    rcases eq_flush_or_exists c with rfl | ⟨d, hd⟩
    · rw [suppressed_flush, sinceFlush_flush, run_flush]
      exact Accounts.empty config
    · have hadded : added (sinceFlush calls ++ [c]) = added (sinceFlush calls) ++ [d] := by
        simp [added, hd]
      rw [suppressed_append hd, sinceFlush_append (isFlush_of_diagnostic? hd), hadded, run_concat,
        call_of_diagnostic? _ hd]
      exact ih.add d

/-- After any calls to a queue its books, which are those of the queue that keeps none, are in
order.  It counts the errors that it holds, and they are no more than its limit; no two diagnostics
that it holds are about the same problem, if it drops repeated ones; and it holds some of the
diagnostics that were added since it was last flushed, in order.  A warning or note about a new
problem is kept.  What is flushed is what the queue holds, and behind it a summary exactly if an
error has been added, with no flush since, when there were as many as the limit allows; then the
queue is as it was in the beginning. -/
theorem books_of_run (config : QueueConfig) (calls : List QueueCall) :
    run config calls = of ((DiagnosticQueue.empty config).after calls) ∧
    Accounts config (added (sinceFlush calls)) (suppressed config calls) (run config calls) ∧
    (∀ c d, c.diagnostic? = some d → ¬d.isError →
      (∀ e ∈ (run config calls).diagnostics, e.key ≠ d.key) →
        ((run config calls).add d).1 = true ∧
        (run config (calls ++ [c])).diagnostics = (run config calls).diagnostics ++ [d]) ∧
    (run config calls).flush =
      ((run config calls).diagnostics ++
          if 0 < (suppressed config calls).length then
            [.tooManyErrors (run config calls).errors (suppressed config calls).length]
          else [],
        empty config) ∧
    ∀ d, d ∈ suppressed config calls ↔
      ∃ earlier c later, calls = earlier ++ c :: later ∧ .flush ∉ later ∧
        c.diagnostic? = some d ∧ d.isError ∧ 0 < config.errorLimit ∧
        config.errorLimit ≤ (run config earlier).errors := by
  have haccounts := accounts_run config calls
  refine ⟨run_eq config calls, haccounts, ?_, haccounts.flush_eq, fun d => ?_⟩
  -- A warning or note is not affected by the limit, so it is kept unless it is repeated.
  · intro c d hc hd hnew
    have hadd := haccounts.add_of_new hd hnew
    rw [run_concat, call_of_diagnostic? _ hc]
    exact hadd
  · simp only [mem_suppressed, (accounts_run config _).limitReached_iff]

/-- A warning that is flushed, and then three errors of which one is repeated. -/
def shopCalls : List QueueCall :=
  [.add oddity, .flush, .emitError shopErrors[0], .add shopErrors[2], .add shopErrors[0]]

/-- A queue that has room for one error counts the other two, and still takes the warning. -/
theorem books_of_shopCalls :
    (run ⟨1, true⟩ (shopCalls ++ [.add oddity])).diagnostics = [shopErrors[0], oddity] ∧
    (run ⟨1, true⟩ shopCalls).flush =
      ([shopErrors[0], .tooManyErrors 1 2], empty ⟨1, true⟩) := by
  -- The general statement is applied to the three errors, of which one is held and two are dropped.
  obtain ⟨-, haccounts, hkept, hflush, -⟩ := books_of_run ⟨1, true⟩ shopCalls
  have hheld : (run ⟨1, true⟩ shopCalls).diagnostics = [shopErrors[0]] := by decide +kernel
  have hcut : (suppressed ⟨1, true⟩ shopCalls).length = 2 := by decide +kernel
  rw [haccounts.errors_eq, hheld, hcut] at hflush
  rw [hheld] at hkept
  exact ⟨(hkept (.add oddity) oddity rfl (by decide) (by decide)).2, hflush⟩

end CountedQueue

end GraphCodec
