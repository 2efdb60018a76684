import GraphCodec.Proofs.Diagnostic.Queue

/-!
# The summary of dropped errors

A queue with a limit keeps the first errors of different problems until it holds as many as the
limit allows, and from then on drops every error and counts it, whether it repeats one or not.  So
the errors that are added fall into those up to the one that reaches the limit and those behind it
(`IsCut`).  What is flushed are the different problems of the former, and a summary with the number
of the latter; the two together are the different problems that were added exactly if no error
behind the limit repeats one in front of it (`CountedQueue.flush_of_errors`).
-/

namespace GraphCodec

variable {limit : Nat} {ds es shown kept cut : List Diagnostic} {d : Diagnostic}

/-! ### Different problems -/

/-- The problems that some diagnostics are about. -/
def problems (ds : List Diagnostic) : Finset ProblemKey := (ds.map Diagnostic.key).toFinset

theorem mem_problems {k : ProblemKey} : k ∈ problems ds ↔ ∃ d ∈ ds, d.key = k := by
  simp [problems]

/-- The problems of two lists are those of either. -/
theorem problems_append (ds es : List Diagnostic) :
    problems (ds ++ es) = problems ds ∪ problems es := by
  simp [problems]

private theorem card_problems_le (ds : List Diagnostic) : (problems ds).card ≤ ds.length := by
  simpa [problems] using List.toFinset_card_le (ds.map Diagnostic.key)

/-- There are as many problems as diagnostics if no two are about the same one. -/
theorem card_problems_eq_iff :
    (problems ds).card = ds.length ↔ (ds.map Diagnostic.key).Nodup := by
  have hcard := Multiset.toFinset_card_eq_card_iff_nodup
    (m := (↑(ds.map Diagnostic.key) : Multiset ProblemKey))
  rwa [Multiset.coe_card, List.length_map, Multiset.coe_nodup] at hcard

/-- As many problems are added as diagnostics if these are about problems of their own. -/
private theorem card_problems_append_iff (ds es : List Diagnostic) :
    (problems ds).card + es.length = (problems (ds ++ es)).card ↔
      (es.map Diagnostic.key).Nodup ∧ Disjoint (problems ds) (problems es) := by
  have hunion := Finset.card_union_le (problems ds) (problems es)
  have hle := card_problems_le es
  rw [problems_append, ← card_problems_eq_iff, ← Finset.card_union_eq_card_add_card]
  omega

/-- The first of some diagnostics are about some of their problems. -/
private theorem problems_subset (h : es <+: ds) : problems es ⊆ problems ds := by
  obtain ⟨rest, rfl⟩ := h
  rw [problems_append]
  exact Finset.subset_union_left

/-- One diagnostic of each problem, out of some diagnostics. -/
structure Shows (ds shown : List Diagnostic) : Prop where
  sublist : shown.Sublist ds
  nodup : (shown.map Diagnostic.key).Nodup
  problems_eq : problems shown = problems ds

namespace Shows

private theorem nil : Shows [] [] := ⟨.slnil, List.nodup_nil, rfl⟩

private theorem length_eq (h : Shows ds shown) : shown.length = (problems ds).card := by
  rw [← h.problems_eq, card_problems_eq_iff.2 h.nodup]

/-- A problem that is there already need not be shown again. -/
private theorem repeated (h : Shows ds shown) (hd : d.key ∈ problems ds) :
    Shows (ds ++ [d]) shown where
  sublist := h.sublist.trans (List.sublist_append_left ds [d])
  nodup := h.nodup
  problems_eq := by
    -- The problem is among those shown already, so there are no more problems than before.
    have hsub : problems [d] ⊆ problems ds := by
      intro k hk
      obtain ⟨e, he, rfl⟩ := mem_problems.1 hk
      rwa [List.mem_singleton.1 he]
    rw [problems_append, Finset.union_eq_left.2 hsub, h.problems_eq]

/-- A new problem is shown behind the others. -/
private theorem new (h : Shows ds shown) (hd : d.key ∉ problems ds) :
    Shows (ds ++ [d]) (shown ++ [d]) where
  sublist := h.sublist.append (List.Sublist.refl [d])
  nodup := by
    rw [List.map_append, List.nodup_append]
    -- None of those shown is about it.
    refine ⟨h.nodup, List.nodup_singleton _, ?_⟩
    rintro k hk l hl rfl
    rw [← h.problems_eq] at hd
    exact hd (mem_problems.2 (by simpa [List.mem_singleton.1 hl] using hk))
  problems_eq := by rw [problems_append, problems_append, h.problems_eq]

end Shows

/-! ### Reaching the limit -/

/-- Whether some diagnostics fall into those up to the one that reaches a limit of different
problems, and those behind it. -/
structure IsCut (limit : Nat) (ds kept cut : List Diagnostic) : Prop where
  append : ds = kept ++ cut
  shortest : ∀ es, es <+: kept → es ≠ kept → (problems es).card < limit
  reached : cut ≠ [] → (problems kept).card = limit

namespace IsCut

/-- Without diagnostics nothing is kept and nothing cut off. -/
private theorem nil (limit : Nat) : IsCut limit [] [] [] where
  append := rfl
  shortest := fun _ hes hne => absurd (List.prefix_nil.1 hes) hne
  reached := fun hne => absurd rfl hne

/-- What is kept is about at most as many problems as the limit allows. -/
private theorem card_le (h : IsCut limit ds kept cut) : (problems kept).card ≤ limit := by
  rcases List.eq_nil_or_concat' kept with rfl | ⟨init, last, rfl⟩
  · exact Nat.zero_le _
  -- One less than what is kept is below the limit, and one diagnostic adds at most one problem.
  · have hlt := h.shortest init (List.prefix_append _ _) (by simp)
    have hone := card_problems_le [last]
    have hunion := Finset.card_union_le (problems init) (problems [last])
    rw [problems_append]
    simp only [List.length_singleton] at hone
    omega

/-- A diagnostic behind the limit. -/
private theorem more (h : IsCut limit ds kept cut) (hlimit : limit ≤ (problems kept).card) :
    IsCut limit (ds ++ [d]) kept (cut ++ [d]) where
  append := by rw [h.append, List.append_assoc]
  shortest := h.shortest
  reached := fun _ => Nat.le_antisymm h.card_le hlimit

/-- A diagnostic in front of the limit. -/
private theorem next (h : IsCut limit ds kept cut) (hlimit : (problems kept).card < limit) :
    IsCut limit (ds ++ [d]) (kept ++ [d]) [] where
  append := by
    -- Below the limit nothing has been cut off yet.
    have hcut : cut = [] := by
      by_contra hne
      exact absurd (h.reached hne) hlimit.ne
    rw [h.append, hcut, List.append_nil, List.append_nil]
  -- A shorter beginning is a beginning of what was kept before.
  shortest := fun es hes hne => by
    have hsub := problems_subset ((List.prefix_concat_iff.1 hes).resolve_left hne)
    exact Nat.lt_of_le_of_lt (Finset.card_le_card hsub) hlimit
  reached := fun hne => absurd rfl hne

end IsCut

/-! ### Adding errors -/

/-- What a queue with a limit holds that drops repeated diagnostics, after some errors. -/
structure Collects (limit : Nat) (ds kept cut : List Diagnostic) (q : DiagnosticQueue) : Prop where
  config : q.config = ⟨limit, true⟩
  isCut : IsCut limit ds kept cut
  shows : Shows kept q.diagnostics
  dropped : q.dropped = cut.length

namespace Collects

variable {q : DiagnosticQueue}

private theorem empty (limit : Nat) : Collects limit [] [] [] (.empty ⟨limit, true⟩) :=
  ⟨rfl, .nil limit, .nil, rfl⟩

/-- The queue counts as many errors as there are problems in what is kept. -/
private theorem errorCount_eq (h : Collects limit ds kept cut q) (hds : ∀ d ∈ ds, d.isError) :
    q.errorCount = (problems kept).card := by
  rw [← h.shows.length_eq]
  refine List.countP_eq_length.2 fun d hd => hds d ?_
  rw [h.isCut.append]
  exact List.mem_append_left _ (h.shows.sublist.subset hd)

/-- An error that is added is behind the limit, repeated or new. -/
theorem add (h : Collects limit ds kept cut q) (hlimit : 0 < limit) (hds : ∀ d ∈ ds, d.isError)
    (hd : d.isError) :
    ∃ kept' cut', Collects limit (ds ++ [d]) kept' cut' (q.add d).2 := by
  -- Both questions of the queue are about the problems of what is kept.
  have hreached : q.limitReached ↔ limit ≤ (problems kept).card := by
    simp [DiagnosticQueue.limitReached, h.config, h.errorCount_eq hds, hlimit]
  have hrepeats : q.repeats d ↔ d.key ∈ problems kept := by
    rw [DiagnosticQueue.repeats_iff, h.config, ← h.shows.problems_eq, mem_problems]
    simp [eq_comm]
  unfold DiagnosticQueue.add
  by_cases hfull : limit ≤ (problems kept).card
  -- The limit has been reached, so the error is dropped and counted.
  · rw [if_pos (by simp [hd, hreached.2 hfull])]
    refine ⟨kept, cut ++ [d], h.config, h.isCut.more hfull, h.shows, ?_⟩
    rw [List.length_append, List.length_singleton, h.dropped]
  · rw [if_neg (by simp [hd, hreached, hfull])]
    -- Nothing is behind the limit as long as it is not reached.
    have hcut := h.isCut.next (d := d) (Nat.lt_of_not_le hfull)
    have hnone : cut = [] := by
      by_contra hne
      exact hfull (h.isCut.reached hne).ge
    have hdropped : q.dropped = 0 := by rw [h.dropped, hnone, List.length_nil]
    -- Below the limit the error is kept, and shown if its problem is new.
    by_cases hold : d.key ∈ problems kept
    · rw [if_pos (hrepeats.2 hold)]
      exact ⟨kept ++ [d], [], h.config, hcut, h.shows.repeated hold, hdropped⟩
    · rw [if_neg fun hr => hold (hrepeats.1 hr)]
      exact ⟨kept ++ [d], [], h.config, hcut, h.shows.new hold, hdropped⟩

/-- Errors are added one after another. -/
private theorem after (hlimit : 0 < limit) (hds : ∀ d ∈ ds, d.isError) :
    ∃ kept cut, Collects limit ds kept cut
      ((DiagnosticQueue.empty ⟨limit, true⟩).after (ds.map .add)) := by
  induction ds using List.reverseRecOn with
  | nil => exact ⟨[], [], empty limit⟩
  | append_singleton ds d ih =>
    have hinit : ∀ e ∈ ds, e.isError := fun e he => hds e (List.mem_append_left _ he)
    obtain ⟨kept, cut, h⟩ := ih hinit
    -- The last error is added to what the others left.
    rw [List.map_append, DiagnosticQueue.after, List.foldl_append]
    exact h.add hlimit hinit (hds d (by simp))

end Collects

/-- What is flushed after some errors: the different problems among those up to the one that reaches
the limit, and how many there are behind it.  The numbers of the two add up to that of the different
problems that were added exactly if the errors behind the limit are about problems of their own. -/
structure Summarizes (limit : Nat) (ds kept cut shown flushed : List Diagnostic) : Prop where
  isCut : IsCut limit ds kept cut
  shows : Shows kept shown
  flushed_eq : flushed =
    shown ++ if 0 < cut.length then [.tooManyErrors shown.length cut.length] else []
  sum_eq_iff : shown.length + cut.length = (problems ds).card ↔
    (cut.map Diagnostic.key).Nodup ∧ Disjoint (problems kept) (problems cut)

namespace CountedQueue

/-- Whatever errors are added to a queue with a limit that drops repeated diagnostics, what is
flushed summarizes them. -/
theorem flush_of_errors (limit : Nat) (hlimit : 0 < limit) (ds : List Diagnostic)
    (hds : ∀ d ∈ ds, d.isError) :
    ∃ kept cut shown,
      Summarizes limit ds kept cut shown (run ⟨limit, true⟩ (ds.map .add)).flush.1 := by
  obtain ⟨kept, cut, h⟩ := Collects.after hlimit hds
  refine ⟨kept, cut, _, h.isCut, h.shows, ?_, ?_⟩
  · rw [run_eq, flush_of, DiagnosticQueue.flush, h.dropped, h.errorCount_eq hds,
      ← h.shows.length_eq]
  · rw [h.shows.length_eq, h.isCut.append, card_problems_append_iff]

/-- Errors in fields of a shop, some of them repeated. -/
def shopErrors : List Diagnostic :=
  ["till", "till", "door", "till", "sign", "sign"].map fun field =>
    { Diagnostic.unsupportedType "void" "`void` has no values" with
      context := [.field "Shop" field] }

/-- Two of three problems are shown, and three errors are counted behind the limit: one of them
repeats an error that is shown, and one repeats an error that is not. -/
theorem flush_of_shopErrors :
    (∃ kept cut shown, Summarizes 2 shopErrors kept cut shown
      (run ⟨2, true⟩ (shopErrors.map .add)).flush.1) ∧
    (run ⟨2, true⟩ (shopErrors.map .add)).flush.1 =
      [shopErrors[0], shopErrors[2], .tooManyErrors 2 3] ∧ (problems shopErrors).card = 3 :=
  ⟨flush_of_errors 2 (by decide) shopErrors (by decide), by decide +kernel, by decide +kernel⟩

/-- An error that repeats a shown one is counted as not shown if the limit has been reached. -/
theorem not_sum_of_repeated :
    ¬∀ (limit : Nat) (ds : List Diagnostic), 0 < limit → (∀ d ∈ ds, d.isError) →
      ∃ shown dropped, (run ⟨limit, true⟩ (ds.map .add)).flush.1 =
          shown ++ (if 0 < dropped then [.tooManyErrors shown.length dropped] else []) ∧
        shown.length + dropped = (problems ds).card := by
  intro h
  obtain ⟨shown, dropped, hflush, hsum⟩ := h 1 [.internalError "odd", .internalError "odd"]
    (by decide) (by decide)
  -- The queue shows one error and a summary of one, but there is one problem.
  have htwo : (run ⟨1, true⟩ ([.internalError "odd", .internalError "odd"].map .add)).flush.1.length
      = 2 := by decide +kernel
  have hone : (problems [.internalError "odd", .internalError "odd"]).card = 1 := by decide +kernel
  rw [hflush, List.length_append] at htwo
  split at htwo <;> simp only [List.length_singleton, List.length_nil] at htwo <;> omega

end CountedQueue

end GraphCodec
