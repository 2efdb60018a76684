import GraphCodec.Proofs.Codec.Objects
import GraphCodec.Proofs.Emission.Subtypes
import GraphCodec.Proofs.Generation.Closure
import GraphCodec.Proofs.Types.Descent

/-!
# Dispatch

A value of a class is handed on to the codec of a subtype under the name of that subtype.  The names
in the plan of a class are those of the classes with instances below it, each once and in strictly
ascending order, because no two of them share a name.  So halving the list finds exactly the names
that are in it, and a linked codec and its emitted source agree on what is a subtype
(`TypeGraph.subtypes_of_plan`).
-/

namespace GraphCodec

open Relation

/-- Halving a list of names in ascending order finds exactly the names in it. -/
private theorem ObjectPlan.knowsSubtype_iff {p : ObjectPlan} (h : p.subtypes.Pairwise (· ≤ ·))
    {name : String} : p.knowsSubtype name = true ↔ name ∈ p.subtypes :=
  ⟨mem_of_binarySearch, binarySearch_of_mem h⟩

namespace TypeGraph

variable {g : TypeGraph} {id : TypeId}

/-- The concrete subtypes of a type have different names. -/
private theorem LoadedGraph.nodup_name_concreteSubtypes (hg : g.LoadedGraph) (id : TypeId) :
    ((g.concreteSubtypes id).map g.name).Nodup := by
  refine List.pairwise_map.2 ((g.nodup_concreteSubtypes id).imp_of_mem ?_)
  intro a b ha hb hne hname
  have hclass : ∀ sub ∈ g.concreteSubtypes id, g.WrittenBy sub sub := fun sub hsub =>
    Or.inr (hg.classify_subtype (List.mem_filter.1 hsub).1)
  exact hne (hg.built.consistent.eq_of_name_eq (hclass a ha) (hclass b hb) hname)

/-- The names of the concrete subtypes of a type are in strictly ascending order. -/
private theorem LoadedGraph.pairwise_lt_concreteSubtypes (hg : g.LoadedGraph) (id : TypeId) :
    ((g.concreteSubtypes id).map g.name).Pairwise (· < ·) :=
  List.pairwise_lt_of_nodup (pairwise_concreteSubtypes id) (hg.nodup_name_concreteSubtypes id)

/-- The subtypes in the plan of a class or interface of a schema that loads are the names of the
other classes with instances from which it is reached by going up, however the interfaces stand
above each other.  Each is there once, and they are in strictly ascending order; a linked codec
finds the names in the list and no others by halving it, the emitted source by going through it. -/
theorem subtypes_of_plan {s : Schema} {loaded : LoadedSchema} (hs : s.load = .ok loaded)
    {dropped : Option String} {p : ObjectPlan}
    (hp : loaded.graph.plan dropped id = .ok (.object p)) :
    (∃ subs : List TypeId, subs.Nodup ∧ p.subtypes = subs.map loaded.graph.name ∧
      ∀ sub, sub ∈ subs ↔ sub ≠ id ∧ loaded.graph.IsConcreteClass sub ∧
        TransGen loaded.graph.IsA sub id) ∧
    p.subtypes.Pairwise (· < ·) ∧
    ∀ name, (p.knowsSubtype name = true ↔ name ∈ p.subtypes) ∧
      ∀ identity, (p.source identity).knowsSubtype? name = some (p.knowsSubtype name) := by
  have hg := loadedGraph_of_load hs
  have hsubtypes := (plan_eq_object hp).1.subtypes
  have hlt : p.subtypes.Pairwise (· < ·) := hsubtypes ▸ hg.pairwise_lt_concreteSubtypes id
  have hknows : ∀ name, p.knowsSubtype name = true ↔ name ∈ p.subtypes := fun name =>
    ObjectPlan.knowsSubtype_iff (hlt.imp fun h => String.not_lt.1 (String.lt_asymm h))
  refine ⟨⟨_, loaded.graph.nodup_concreteSubtypes id, hsubtypes, fun sub =>
    mem_concreteSubtypes_iff⟩, hlt, fun name => ⟨hknows name, fun identity => ?_⟩⟩
  -- The emitted test goes through the list, which finds the same names.
  rw [ObjectPlan.knowsSubtype?_source, Option.some.injEq, Bool.eq_iff_iff, hknows, List.any_eq_true]
  simp only [beq_iff_eq, exists_eq_right]

/-- The interface of a network that stands above itself has two classes below it.  To one of them
two ways lead, and the abstract class between them has no objects. -/
theorem subtypes_of_network :
    Example.networkSchema.load = .ok ⟨Example.networkGraph, [⟨36⟩]⟩ ∧
    TransGen Example.networkGraph.IsA ⟨32⟩ ⟨32⟩ ∧
    ∃ p, Example.networkGraph.plan none ⟨32⟩ = .ok (.object p) ∧ p.subtypes = ["n$d", "n.d"] ∧
      p.subtypes.Pairwise (· < ·) ∧ p.knowsSubtype "n.d" = true ∧
      p.knowsSubtype "Base" = false ∧
      ∀ identity, (p.source identity).knowsSubtype? "n.d" = some true ∧
        (p.source identity).knowsSubtype? "Base" = some false := by
  have hplan : Example.networkGraph.plan none ⟨32⟩ =
      .ok (.object ⟨"In", true, none, ["n$d", "n.d"], []⟩) := by cbv
  have hcycle : TransGen Example.networkGraph.IsA ⟨32⟩ ⟨32⟩ :=
    .tail (b := ⟨33⟩) (.single (show _ ∈ _ by decide)) (show _ ∈ _ by decide)
  obtain ⟨-, hlt, hknows⟩ := subtypes_of_plan Schema.load_networkSchema hplan
  -- One name is in the list, the other is not.
  have hfound := (hknows "n.d").1.2 (by decide)
  have hmissing := Bool.eq_false_iff.2 fun h => absurd ((hknows "Base").1.1 h) (by decide)
  refine ⟨Schema.load_networkSchema, hcycle, _, hplan, rfl, hlt, hfound, hmissing,
    fun identity => ⟨?_, ?_⟩⟩
  · rw [(hknows "n.d").2 identity, hfound]
  · rw [(hknows "Base").2 identity, hmissing]

end TypeGraph

end GraphCodec
