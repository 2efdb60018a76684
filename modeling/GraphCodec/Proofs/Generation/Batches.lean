import GraphCodec.Example.Network
import GraphCodec.Proofs.Generation.IndexedRegistry

/-!
# Building all plans at once

While all plans are built, the registry is started and completed for each type of the generation
order (`Registry.batch`).  If all types of the registry have a place in the order, wait for their
plans and can get them, this goes well for each type, since the others go on waiting
(`TypeGraph.planEach_eq_ok`).  Afterwards everything is complete, and a record that is complete
stays so whatever is called; so building all plans again is refused at the first type of the order
(`TypeGraph.planAll_of_complete`).

`IndexedRegistry.consistent_run` says this of a registry after any calls, beside what holds of its
parts.
-/

namespace GraphCodec

namespace Registry

variable {r r' r'' : Registry} {id : TypeId} {rest : List TypeId} {c : CodecRecord}

/-- The calls that build the plans of types. -/
def batch (ids : List TypeId) : List RegistryCall :=
  ids.flatMap fun id => [.start id, .complete id]

/-- A batch of one type starts and completes it. -/
private theorem after_batch_singleton (hstart : r.start id = .ok r')
    (hcomplete : r'.complete id = .ok r'') :
    r.after (batch [id]) = r'' := by
  show (r.next (.start id)).next (.complete id) = r''
  have hnext : r.next (.start id) = r' := by rw [next, apply, hstart]; rfl
  rw [hnext, next, apply, hcomplete]
  rfl

/-- A record that is complete stays as it is, and the type at the head of the order stays there. -/
private theorem Regular.after_complete (h : r.Regular) (horder : r.order = id :: rest)
    (hc : r.record? id = some c) (hp : c.progress = .complete) (calls : List RegistryCall) :
    (∃ rest', (r.after calls).order = id :: rest') ∧ (r.after calls).record? id = some c := by
  have hext := h.extends_after calls
  -- The order only gets longer behind its head.
  constructor
  · obtain ⟨others, hothers⟩ := hext.order
    exact ⟨rest ++ others, by rw [← hothers, horder]; rfl⟩
  -- The record stays in its place, and a progress that is complete does not move.
  · obtain ⟨hmem, htype⟩ := h.record?_iff.1 hc
    obtain ⟨i, hi⟩ := List.mem_iff_getElem?.1 hmem
    obtain ⟨target, hmoved, hi'⟩ := hext.records i c hi
    rw [hp] at hmoved
    rw [Progress.eq_complete_of_moved hmoved, ← hp] at hi'
    exact (h.after calls).record?_iff.2 ⟨List.mem_of_getElem? hi', htype⟩

/-- Whether all types of a registry have a place in the order, wait for their plans and can get
them. -/
structure Ready (r : Registry) (g : TypeGraph) : Prop where
  finished : ∀ c ∈ r.records, c.type ∈ r.order
  queued : ∀ c ∈ r.records, c.progress = .queued
  plannable : ∀ c ∈ r.records, g.Plannable c.type

section Ready

variable {g : TypeGraph}

/-- A type in the order has a record. -/
theorem Regular.exists_record (h : r.Regular) (hid : id ∈ r.order) :
    ∃ c ∈ r.records, r.record? id = some c ∧ c.type = id := by
  obtain ⟨c, hc⟩ := Option.isSome_iff_exists.1 (h.registered id hid)
  obtain ⟨hmem, htype⟩ := h.record?_iff.1 hc
  exact ⟨c, hmem, hc, htype⟩

/-- In a ready registry each type of the order waits for its plan. -/
private theorem Ready.queued_of_mem (hready : r.Ready g) (h : r.Regular) (hid : id ∈ r.order) :
    r.Queued id := by
  obtain ⟨c, hmem, hc, _⟩ := h.exists_record hid
  exact ⟨c, hc, hready.queued c hmem⟩

/-- In a ready registry each type of the order can get its plan. -/
private theorem Ready.plannable_of_mem (hready : r.Ready g) (h : r.Regular) (hid : id ∈ r.order) :
    g.Plannable id := by
  obtain ⟨c, hmem, _, rfl⟩ := h.exists_record hid
  exact hready.plannable c hmem

/-- Every type that is registered has its place in the order. -/
private theorem Ready.perm (hready : r.Ready g) (h : r.Regular) : r.order.Perm r.types := by
  refine (List.perm_ext_iff_of_nodup h.order_nodup h.types_nodup).2 fun id => ?_
  -- Each side has its types once, so it is enough that both have the same ones.
  refine ⟨fun hid => mem_types_iff.2 (h.registered id hid), fun hid => ?_⟩
  obtain ⟨c, hc, rfl⟩ := List.mem_map.1 hid
  exact hready.finished c hc

end Ready

end Registry

namespace TypeGraph

variable {g : TypeGraph} {dropped : Option String} {r : Registry} {id : TypeId}
  {ids rest : List TypeId} {plans : List CodecPlan} {c : CodecRecord}

/-- The plan of a type that waits for it and can get it is built, and only the record of this type
changes. -/
private theorem planRegistered_eq_ok {p : CodecPlan} (h : r.Queued id)
    (hplan : g.plan dropped id = .ok p) :
    g.planRegistered dropped id r = (.ok p, r.after (Registry.batch [id])) ∧
      ∀ x, (r.after (Registry.batch [id])).record? x =
        (r.record? x).map fun c => if x = id then { c with progress := .complete } else c := by
  obtain ⟨r₁, r₂, hstart, hcomplete, -, hrecord⟩ := h.exists_complete
  rw [Registry.after_batch_singleton hstart hcomplete]
  exact ⟨by simp only [planRegistered, hstart, hplan, hcomplete], hrecord⟩

/-- The plans of types that wait for them and can get them are built, and only the records of these
types change. -/
theorem planEach_eq_ok (hnodup : ids.Nodup) (hqueued : ∀ id ∈ ids, r.Queued id)
    (hplans : List.Forall₂ (fun id p => g.plan dropped id = .ok p) ids plans) :
    g.planEach dropped ids r = (.ok plans, r.after (Registry.batch ids)) ∧
      ∀ x, (r.after (Registry.batch ids)).record? x =
        (r.record? x).map fun c => if x ∈ ids then { c with progress := .complete } else c := by
  induction hplans generalizing r with
  | nil => exact ⟨rfl, fun x => by simp [Registry.batch, Registry.after]⟩
  | @cons id p ids plans hplan _ ih =>
    obtain ⟨hid, hids⟩ := List.nodup_cons.1 hnodup
    obtain ⟨hbuilt, hrecord⟩ := planRegistered_eq_ok (hqueued id List.mem_cons_self) hplan
    -- The rest still waits, because none of it is the type that was planned.
    have hrest : ∀ x ∈ ids, (r.after (Registry.batch [id])).Queued x := by
      intro x hx
      obtain ⟨c, hc, hp⟩ := hqueued x (List.mem_cons_of_mem _ hx)
      have hne : x ≠ id := fun heq => hid (heq ▸ hx)
      exact ⟨c, by simp [hrecord, hc, hne], hp⟩
    obtain ⟨hplanned, hrecords⟩ := ih hids hrest
    -- The batch of all types is that of the first and then that of the rest.
    have hafter : r.after (Registry.batch (id :: ids)) =
        (r.after (Registry.batch [id])).after (Registry.batch ids) :=
      Registry.after_append r (Registry.batch [id]) (Registry.batch ids)
    rw [hafter]
    constructor
    · simp only [planEach, hbuilt, hplanned]
    · intro x
      rw [hrecords, hrecord, Option.map_map]
      refine congrArg (Option.map · _) (funext fun c => ?_)
      -- The first type is not among the rest, so it is completed once.
      by_cases hx : x = id
      · simp [hx, hid]
      · simp [hx]

/-- No plans are built again. -/
theorem planAll_of_complete (g : TypeGraph) (dropped : Option String)
    (horder : r.order = id :: rest)
    (hc : r.record? id = some c) (hp : c.progress = .complete) :
    g.planAll dropped r =
      (.error (.internalError
        (RegistryError.invalidTransition c.typeName .complete .inProgress).message), r) := by
  simp [planAll, horder, planEach, planRegistered, Registry.start, Registry.move, hc, hp]

/-- What comes of building all plans: one for each record, in the order of the types, and the
registry is complete and lets nothing be built again. -/
structure PlansOnce (g : TypeGraph) (dropped : Option String) (r r' : Registry)
    (plans : List CodecPlan) : Prop where
  planAll_eq : g.planAll dropped r = (.ok plans, r')
  plan_eq : List.Forall₂ (fun id p => g.plan dropped id = .ok p) r.order plans
  length_eq : plans.length = r.records.length
  isComplete : r'.isComplete
  once : r.records ≠ [] → ∀ (calls : List RegistryCall) (g' : TypeGraph) (dropped' : Option String),
    ∃ d, g'.planAll dropped' (r'.after calls) = (.error d, r'.after calls)

/-- Where everything is ready all plans are built once, and never again. -/
private theorem exists_plansOnce (h : r.Regular) (hready : r.Ready g) (dropped : Option String) :
    ∃ plans, g.PlansOnce dropped r (r.after (Registry.batch r.order)) plans := by
  -- Each type of the order waits and can get its plan, so building goes well for all of them.
  have hregular := h.after (Registry.batch r.order)
  obtain ⟨plans, hplans⟩ := Except.exists_mapM_eq_ok fun id hid =>
    (hready.plannable_of_mem h hid).exists_plan dropped
  have hforall := Except.mapM_eq_ok.1 hplans
  obtain ⟨hplanned, hrecords⟩ :=
    planEach_eq_ok h.order_nodup (fun id hid => hready.queued_of_mem h hid) hforall
  -- Every record ends up complete, being that of a type in the order.
  have hcomplete : ∀ id ∈ r.order, ∃ c,
      (r.after (Registry.batch r.order)).record? id = some c ∧ c.progress = .complete := by
    intro id hid
    obtain ⟨c, _, hc, _⟩ := h.exists_record hid
    exact ⟨{ c with progress := .complete }, by rw [hrecords, hc]; simp [hid], rfl⟩
  -- There are as many records as places in the order.
  have hlength : r.order.length = r.records.length := by
    rw [(hready.perm h).length_eq, Registry.types, List.length_map]
  refine ⟨plans, hplanned, hforall, by rw [← hforall.length_eq, hlength], ?_, ?_⟩
  · refine List.all_eq_true.2 fun c hc => decide_eq_true ?_
    have hc' := hregular.record?_iff.2 ⟨hc, rfl⟩
    -- The record was there before, since building plans registers nothing.
    have hid : c.type ∈ r.order := by
      rw [hrecords] at hc'
      obtain ⟨d, hd, _⟩ := Option.map_eq_some_iff.1 hc'
      exact Registry.record?_type hd ▸ hready.finished d (h.record?_iff.1 hd).1
    obtain ⟨d, hd, hp⟩ := hcomplete c.type hid
    rw [hc', Option.some.injEq] at hd
    rw [hd, hp]
  · -- Whatever is called, the head of the order stays there, and its record stays complete.
    intro hne calls g' dropped'
    obtain ⟨id, rest, horder⟩ := List.exists_cons_of_length_pos
      (hlength ▸ List.length_pos_iff.2 hne : 0 < r.order.length)
    obtain ⟨c, hc, hp⟩ := hcomplete id (horder ▸ List.mem_cons_self)
    obtain ⟨others, hothers⟩ := (h.extends_after (Registry.batch r.order)).order
    have hafter : (r.after (Registry.batch r.order)).order = id :: (rest ++ others) :=
      hothers.symm.trans (congrArg (· ++ others) horder)
    obtain ⟨⟨rest', horder'⟩, hc'⟩ := hregular.after_complete hafter hc hp calls
    exact ⟨_, planAll_of_complete g' dropped' horder' hc' hp⟩

end TypeGraph

namespace IndexedRegistry

/-- The parts of an indexed registry fit together after any calls, which do to it what they do to
the plain registry.  Its records stand in the order of registration and are as the registrations
asked for, and further calls leave them there and change nothing of them but their progress, which
goes step by step; the order only gets longer.  If then everything is ready, all plans are built,
and they are never built again. -/
theorem consistent_run (calls : List RegistryCall) :
    run calls = some (of (.run calls)) ∧ (of (.run calls)).Sound ∧
    (Registry.run calls).types = (calls.filterMap RegistryCall.registered?).eraseDups ∧
    (∀ call, (Registry.run calls).Extends (Relation.ReflGen Progress.Next)
        (.run (calls ++ [call])) ∧
      ∀ c ∈ (Registry.run (calls ++ [call])).records, c.type ∉ (Registry.run calls).types →
        call = .register c.type c.typeName c.identity ∧ c.progress = .queued) ∧
    (∀ further, (Registry.run calls).Extends (Relation.ReflTransGen Progress.Next)
      (.run (calls ++ further))) ∧
    ∀ g dropped, (Registry.run calls).Ready g → ∃ plans,
      g.PlansOnce dropped (.run calls) (.run (calls ++ Registry.batch (Registry.run calls).order))
        plans := by
  have hregular := Registry.regular_run calls
  refine ⟨run_eq calls, sound_of hregular, Registry.types_run calls, fun call => ?_,
    fun further => ?_, fun g dropped hready => ?_⟩
  -- One more call advances the registry by one step.
  · have hadvances := hregular.advances_next call
    rw [Registry.run_append]
    exact ⟨hadvances.extends, fun c hc hnew => hadvances.new hc hnew⟩
  -- Further calls extend it.
  · rw [Registry.run_append]
    exact hregular.extends_after further
  · rw [Registry.run_append]
    -- A batch builds the plans of a ready registry.
    exact TypeGraph.exists_plansOnce hregular hready dropped

/-- Calls about two classes of a network.  Some of them are of no use or refused. -/
def networkCalls : List RegistryCall :=
  [.register ⟨36⟩ "n$d" "n_d_Codec", .register ⟨35⟩ "n.d" "n_d_2_Codec", .finish ⟨35⟩,
    .register ⟨36⟩ "n$d" "n_d_3_Codec", .complete ⟨35⟩, .finish ⟨35⟩, .finish ⟨36⟩]

/-- After these calls the plans of both classes are built, in the order in which they were
finished. -/
theorem plansOnce_of_networkCalls :
    (Registry.run networkCalls).Ready Example.networkGraph ∧
    ∃ plans, Example.networkGraph.PlansOnce none (.run networkCalls)
      (.run (networkCalls ++ Registry.batch [⟨35⟩, ⟨36⟩])) plans ∧
        plans.map CodecPlan.typeName = ["n.d", "n$d"] := by
  have hrun : Registry.run networkCalls =
      ⟨[⟨⟨36⟩, "n$d", "n_d_Codec", .queued⟩, ⟨⟨35⟩, "n.d", "n_d_2_Codec", .queued⟩],
        [⟨35⟩, ⟨36⟩]⟩ := by decide +kernel
  have hready : (Registry.run networkCalls).Ready Example.networkGraph := by
    rw [hrun]
    refine ⟨by decide, by decide, fun c hc => ?_⟩
    -- There are two records, that of the class and that of its superclass.
    simp only [List.mem_cons, List.not_mem_nil, or_false] at hc
    rcases hc with rfl | rfl
    -- The class has an integer and a field of its superclass, which is registered.
    · have hfields : Example.networkGraph.serializableFields ⟨36⟩ =
          [⟨"at", Primitive.id (.scalar .int), false, []⟩, ⟨"up", ⟨35⟩, false, []⟩] := by cbv
      refine ⟨Or.inr ⟨_, rfl⟩, fun f hf => ?_⟩
      simp only [hfields, List.mem_cons, List.not_mem_nil, or_false] at hf
      rcases hf with rfl | rfl
      · exact ⟨.scalar .int, by cbv⟩
      · exact ⟨.generated "n.d", by cbv⟩
    -- The superclass has no fields.
    · have hfields : Example.networkGraph.serializableFields ⟨35⟩ = [] := by cbv
      exact ⟨Or.inr ⟨_, rfl⟩, fun f hf => absurd hf (by simp [hfields])⟩
  obtain ⟨plans, hplans⟩ := (consistent_run networkCalls).2.2.2.2.2 _ none hready
  have horder : (Registry.run networkCalls).order = [⟨35⟩, ⟨36⟩] := by rw [hrun]
  rw [horder] at hplans
  refine ⟨hready, plans, hplans, ?_⟩
  rw [TypeGraph.typeNames_of_plans hplans.plan_eq, horder]
  rfl

end IndexedRegistry

end GraphCodec
