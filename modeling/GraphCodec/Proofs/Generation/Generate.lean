import GraphCodec.Generation.Unit
import GraphCodec.Proofs.Generation.Planning
import GraphCodec.Proofs.Generation.Walk
import GraphCodec.Proofs.Schema.Load

/-!
# What generation yields

The walk and the planning fit together: generation succeeds exactly when everything that is
reachable from the roots is supported, and then it yields one plan for each enum and class of the
program that is reachable (`GeneratorConfig.generate_iff_supported_and_covers`).
-/

namespace GraphCodec

/-! ### Identities -/

namespace TypeGraph

/-- Planning a type leaves the identities as they are. -/
private theorem identities_move {r r' : Registry} {id : TypeId} {source target : Progress}
    (h : r.move id source target = .ok r') : r'.identities = r.identities := by
  unfold Registry.move at h
  split at h
  · cases h
  -- The progress of the record changes, and its identity stays.
  · split at h
    · cases h
      unfold Registry.identities
      rw [List.map_map]
      congr 2
      funext c
      dsimp only [Function.comp]
      split <;> rfl
    · cases h

/-- Building the plan of one type leaves the identities as they are. -/
private theorem identities_planRegistered (g : TypeGraph) (dropped : Option String) (id : TypeId)
    (r : Registry) : (g.planRegistered dropped id r).2.identities = r.identities := by
  unfold planRegistered
  split
  -- The plan was not started.
  case h_1 => rfl
  case h_2 r₁ hstart =>
    split
    case h_1 => exact identities_move hstart
    -- It was started and could not be made, or it was made and completed.
    case h_2 =>
      split
      case h_1 => exact identities_move hstart
      case h_2 r₂ hcomplete => exact (identities_move hcomplete).trans (identities_move hstart)

/-- Building the plans of types leaves the identities as they are. -/
theorem identities_planEach (g : TypeGraph) (dropped : Option String) (ids : List TypeId)
    (r : Registry) : (g.planEach dropped ids r).2.identities = r.identities := by
  induction ids generalizing r with
  | nil => rfl
  | cons id rest ih =>
    have hstep := identities_planRegistered g dropped id r
    unfold planEach
    generalize g.planRegistered dropped id r = step at hstep ⊢
    -- The plan failed, or it was built and the rest follows.
    rcases step with ⟨_ | plan, r₁⟩
    · exact hstep
    · have hrest := (ih r₁).trans hstep
      dsimp only
      generalize g.planEach dropped rest r₁ = others at hrest ⊢
      rcases others with ⟨_ | plans, r₂⟩ <;> exact hrest

end TypeGraph

/-! ### Units -/

open TypeGraph

namespace GeneratorConfig

variable {g : TypeGraph} {roots : List TypeId} {c : GeneratorConfig} {u : GeneratedUnit}

/-- The invariant of the walk holds at its end. -/
theorem walkInvariant (hg : g.Consistent) (c : GeneratorConfig) (roots : List TypeId) :
    WalkInvariant g roots [] (c.walk g roots) :=
  (WalkInvariant.start_of_roots g roots _).walk hg

/-- Without errors the generation order holds what has a codec of its own and is reachable. -/
theorem mem_order_iff (hg : g.Consistent) (hs : g.Supported roots) {id : TypeId} :
    id ∈ (c.walk g roots).registry.order ↔ g.Reach roots id ∧ g.WrittenBy id id := by
  have hinv := walkInvariant hg c roots
  rw [← exists_writtenBy_iff, ← hinv.contains_iff (hinv.hasErrors?_iff.2 hs)]
  exact ⟨hinv.order id, fun hid => (hinv.left id hid).resolve_right fun hmem => nomatch hmem⟩

/-- The generation order of a walk can be computed. -/
theorem order_walk_eq (steps : Nat) {order : List TypeId}
    (h : g.orderWithin steps (roots.flatMap g.rootSteps) [] [] = some order) :
    (c.walk g roots).registry.order = order := by
  have hseen : ∀ id, Registry.empty.contains id = decide (id ∈ ([] : List TypeId)) := fun _ => rfl
  exact order_walk_of_orderWithin hseen h

/-- Every registered type waits for its plan when the walk ends. -/
theorem queued_of_mem_order (hg : g.Consistent) {id : TypeId}
    (hid : id ∈ (c.walk g roots).registry.order) : (c.walk g roots).registry.Queued id := by
  have hinv := walkInvariant hg c roots
  obtain ⟨r, hr⟩ := Option.isSome_iff_exists.1 (hinv.order id hid)
  exact ⟨r, hr, (hinv.records r (List.mem_of_find?_eq_some hr)).1⟩

/-- Generation succeeds when everything that is reachable is supported. -/
theorem exists_generate (hg : g.Consistent) (c : GeneratorConfig) (hs : g.Supported roots) :
    ∃ u, c.generate g roots = .ok u := by
  -- Everything in the generation order is reachable and has a codec of its own, so it gets a plan.
  have hinv := walkInvariant hg c roots
  have hplans : ∀ id ∈ (c.walk g roots).registry.order,
      ∃ p, g.plan c.droppedStart id = .ok p := fun id hid =>
    have ⟨hreach, hwritten⟩ := (mem_order_iff hg hs).1 hid
    exists_plan c.droppedStart hs hreach hwritten
  obtain ⟨plans, hplans⟩ := Except.exists_mapM_eq_ok hplans
  have hall : (g.planAll c.droppedStart (c.walk g roots).registry).1 = .ok plans := by
    rw [planAll, planEach_eq_mapM g _ hinv.nodup fun id => queued_of_mem_order hg, hplans]
  -- There are no errors, so generation does not stop before the plans.
  unfold generate
  dsimp only
  rw [hinv.hasErrors?_iff.2 hs, if_neg Bool.false_ne_true]
  rcases h : g.planAll c.droppedStart (c.walk g roots).registry with ⟨_ | plans', r⟩
  · rw [h] at hall
    cases hall
  · exact ⟨_, rfl⟩

/-- A generation that succeeds yields the unit of its plans, with the identities of the walk. -/
theorem eq_unit_of_generate (h : c.generate g roots = .ok u) :
    ∃ r, u = c.unit r u.plans ∧ r.identities = (c.walk g roots).registry.identities := by
  have hsame := identities_planEach g c.droppedStart (c.walk g roots).registry.order
    (c.walk g roots).registry
  unfold generate at h
  dsimp only at h
  -- Errors stop the generation.
  split at h
  case isTrue => cases h
  -- So does a plan that cannot be built, and otherwise the unit holds the plans.
  case isFalse =>
    split at h
    case h_1 => cases h
    case h_2 plans r hall =>
      rw [planAll] at hall
      rw [hall] at hsame
      cases h
      exact ⟨r, rfl, hsame⟩

/-- What a generation that succeeds has found and planned. -/
theorem generate_eq_ok (hg : g.Consistent) (h : c.generate g roots = .ok u) :
    g.Supported roots ∧ u.tagMember = c.tagMember ∧
      List.Forall₂ (fun id p => g.plan c.droppedStart id = .ok p)
        (c.walk g roots).registry.order u.plans := by
  have hinv := walkInvariant hg c roots
  unfold generate at h
  dsimp only at h
  split at h
  case isTrue => cases h
  case isFalse hok =>
    -- Without errors everything is supported.
    refine ⟨hinv.hasErrors?_iff.1 (Bool.eq_false_iff.2 hok), ?_⟩
    have hplans := planEach_eq_mapM g c.droppedStart hinv.nodup fun id =>
      queued_of_mem_order hg
    split at h
    case h_1 => cases h
    case h_2 plans r hall =>
      cases h
      rw [← planAll, hall] at hplans
      exact ⟨rfl, Except.mapM_eq_ok.1 hplans.symm⟩

/-- The plans of a unit have different names. -/
theorem nodup_typeName (hg : g.Consistent) (h : c.generate g roots = .ok u) :
    (u.plans.map CodecPlan.typeName).Nodup := by
  obtain ⟨hs, -, hplans⟩ := generate_eq_ok hg h
  rw [typeNames_of_plans hplans]
  refine List.pairwise_map.2 ((walkInvariant hg c roots).nodup.imp_of_mem ?_)
  intro a b ha hb hne hab
  exact hne (hg.eq_of_name_eq ((mem_order_iff hg hs).1 ha).2 ((mem_order_iff hg hs).1 hb).2 hab)

/-- The plans of a unit are those of the types in the generation order, and its table holds them. -/
theorem plans_eq (hg : g.Consistent) (hu : c.generate g roots = .ok u)
    {order : List TypeId} {plans : List CodecPlan}
    (horder : (c.walk g roots).registry.order = order)
    (hplans : order.mapM (g.plan c.droppedStart) = .ok plans) :
    u.plans = plans ∧ u.link = .ofPlans c.tagMember plans := by
  obtain ⟨-, htag, hall⟩ := generate_eq_ok hg hu
  rw [horder, ← Except.mapM_eq_ok, hplans] at hall
  -- Both lists are the plans of one order.
  have heq := Except.ok.inj hall
  exact ⟨heq.symm, by rw [GeneratedUnit.link, htag, heq]⟩

/-- Generation succeeds exactly when everything that is reachable from the roots is supported.  Then
its plans are those of the enums and classes of the program that are reachable: one for each, under
different names. -/
theorem generate_iff_supported_and_covers (hg : g.Built) (c : GeneratorConfig)
    (roots : List TypeId) :
    ((∃ u, c.generate g roots = .ok u) ↔ g.Supported roots) ∧
      ∀ u, c.generate g roots = .ok u →
        (u.plans.map CodecPlan.typeName).Nodup ∧
          ∃ ids : List TypeId, ids.Nodup ∧
            (∀ id, id ∈ ids ↔ g.Reach roots id ∧ g.WrittenBy id id) ∧
              List.Forall₂ (fun id p => g.plan c.droppedStart id = .ok p ∧
                p.typeName = g.name id) ids u.plans := by
  have hcons := hg.consistent
  -- The plans come in the generation order, whose types are those that are reachable.
  refine ⟨⟨fun ⟨u, hu⟩ => (generate_eq_ok hcons hu).1, exists_generate hcons c⟩, fun u hu => ?_⟩
  obtain ⟨hs, -, hplans⟩ := generate_eq_ok hcons hu
  exact ⟨nodup_typeName hcons hu, (c.walk g roots).registry.order,
    (walkInvariant hcons c roots).nodup, fun id => mem_order_iff hcons hs,
    hplans.imp fun id p hp => ⟨hp, typeName_of_plan hp⟩⟩

/-- Everything that is reachable from an owner of pets is supported: the owner, its list and map,
the pets, the dogs below them, and what their fields hold. -/
theorem supported_petGraph : Example.petGraph.Supported [⟨35⟩] := by
  have h : Example.petGraph.checkSupported [⟨35⟩]
      [⟨35⟩, ⟨36⟩, ⟨37⟩, ⟨33⟩, ⟨34⟩, ⟨32⟩, .string, Primitive.id (.scalar .int),
        Scalar.boxedId .int] = true := by cbv
  exact supported_of_checkSupported h

/-- Everything that is reachable in the graph of a network is supported. -/
theorem supported_networkGraph : Example.networkGraph.Supported [⟨36⟩] := by
  have h : Example.networkGraph.checkSupported [⟨36⟩]
      [⟨34⟩, ⟨35⟩, ⟨36⟩, Primitive.id (.scalar .int), Primitive.id (.scalar .long)] = true := by cbv
  exact supported_of_checkSupported h

/-- Codecs are generated for the graph of pets, one for each of its enums and classes. -/
theorem generate_pets_covers :
    Example.petGraph.Built ∧ ∃ u, standard.generate Example.petGraph [⟨35⟩] = .ok u ∧
      (u.plans.map CodecPlan.typeName).Nodup ∧
        ∃ ids : List TypeId, ids.Nodup ∧
          (∀ id, id ∈ ids ↔
            Example.petGraph.Reach [⟨35⟩] id ∧ Example.petGraph.WrittenBy id id) ∧
            List.Forall₂ (fun id p => Example.petGraph.plan standard.droppedStart id = .ok p ∧
              p.typeName = Example.petGraph.name id) ids u.plans := by
  -- Pets are supported, so codecs are generated for them.
  have hbuilt := Schema.built_of_load Schema.load_petSchema
  obtain ⟨hiff, hcovers⟩ := generate_iff_supported_and_covers hbuilt standard [⟨35⟩]
  obtain ⟨u, hu⟩ := hiff.2 supported_petGraph
  exact ⟨hbuilt, u, hu, hcovers u hu⟩

end GeneratorConfig

end GraphCodec
