import GraphCodec.Proofs.Codec.DecodingCalls
import GraphCodec.Proofs.Codec.EncodingCalls
import GraphCodec.Proofs.Generation.Inheritance

/-!
# Codecs return

The references to generated codecs and the lists of subtypes may lead from class to class in
circles: a call through them goes on with a part of the value, or it is the one call that hands the
value on.  Only the names of superclasses are followed for one and the same object, so the calls of
the codecs of a table come to an end if these do (`codecs_return`).  The names of superclasses in
the plans of a unit do, because each is that of the class above in the graph
(`GeneratorConfig.acyclic_plans`).
-/

namespace GraphCodec

open Relation

namespace GeneratorConfig

open TypeGraph

variable {g : TypeGraph} {roots : List TypeId} {c : GeneratorConfig} {u : GeneratedUnit}
  (hg : g.LoadedGraph) (hu : c.generate g roots = .ok u)

include hg hu

/-- A class that a plan puts below another is below it in the graph. -/
private theorem exists_below_of_plans {name above : String}
    (h : CodecPlan.Below u.plans name above) :
    ∃ id id', (g.classify id = .userClass id ∧ g.name id = name) ∧
      (g.classify id' = .userClass id' ∧ g.name id' = above) ∧ g.Below id id' := by
  obtain ⟨p, hp, rfl, hsuper⟩ := h
  obtain ⟨id, -, hclass, hplanned⟩ := exists_of_object_mem_plans hg.built.consistent hu hp
  -- The superclass is named if it adds fields.
  rw [hplanned.superclass] at hsuper
  split at hsuper
  case isTrue hin =>
    obtain ⟨id', hid', rfl⟩ := Option.map_eq_some_iff.1 hsuper
    exact ⟨id, id', ⟨hclass, hplanned.typeName.symm⟩, ⟨hg.classify_superclass hin hid', rfl⟩, hid'⟩
  case isFalse => cases hsuper

/-- Plans lead from name to name as the graph leads from class to class. -/
private theorem exists_transGen_of_plans {name above : String}
    (h : TransGen (CodecPlan.Below u.plans) name above) :
    ∃ id id', (g.classify id = .userClass id ∧ g.name id = name) ∧
      (g.classify id' = .userClass id' ∧ g.name id' = above) ∧ TransGen g.Below id id' := by
  induction h with
  | single hstep =>
    obtain ⟨id, id', hid, hid', hbelow⟩ := exists_below_of_plans hg hu hstep
    exact ⟨id, id', hid, hid', .single hbelow⟩
  | tail _ hstep ih =>
    obtain ⟨id, mid, hid, hmid, hup⟩ := ih
    obtain ⟨mid', id', hmid', hid', hbelow⟩ := exists_below_of_plans hg hu hstep
    -- No two classes have one name, so the next step starts where the way has led to.
    obtain rfl : mid = mid' := hg.built.consistent.eq_of_name_eq (Or.inr hmid.1) (Or.inr hmid'.1)
      (hmid.2.trans hmid'.2.symm)
    exact ⟨id, id', hid, hid', hup.tail hbelow⟩

/-- The plans of a unit put no class above itself. -/
theorem acyclic_plans : CodecPlan.Acyclic u.plans := by
  intro name hcycle
  obtain ⟨id, id', hid, hid', hup⟩ := exists_transGen_of_plans hg hu hcycle
  obtain rfl : id = id' := hg.built.consistent.eq_of_name_eq (Or.inr hid.1) (Or.inr hid'.1)
    (hid.2.trans hid'.2.symm)
  exact hg.built.acyclic id hup

end GeneratorConfig

/-- The calls of the codecs of a table come to an end for every codec reference, every value and
every text, with what the table encodes and decodes, if the plans it was linked from put no class
above itself.  As many nested calls are enough for each level of the value, or for each character of
the text, as there are classes in the table, and three more.  The plans of every schema that can be
loaded and generated put no class above itself.  Where a class is above itself there are values for
which no depth is enough. -/
theorem codecs_return :
    (∀ tag plans, CodecPlan.Acyclic plans →
      (∀ c v depth,
        ((CodecTable.ofPlans tag plans).objects.length + 3) * (v.nesting + 1) ≤ depth →
        (Calling.encodeText (.ofPlans tag plans) depth c v).run =
          some ((CodecTable.ofPlans tag plans).encode c v)) ∧
      ∀ c text depth,
        ((CodecTable.ofPlans tag plans).objects.length + 3) * (text.length + 1) ≤ depth →
        (Calling.decodeText (.ofPlans tag plans) depth c text).run =
          some ((CodecTable.ofPlans tag plans).decode c text)) ∧
    (∀ (s : Schema) loaded (config : GeneratorConfig) u, s.load = .ok loaded →
      config.generateSchema loaded = .ok u → CodecPlan.Acyclic u.plans) ∧
    ∀ t : CodecTable, t.Acyclic ↔
      ∀ c v, ∃ depth r, (Calling.encodeText t depth c v).run = some r := by
  refine ⟨fun tag plans h => ?_, fun s loaded config u hs hu => ?_, fun t => ?_⟩
  -- The depth bounds the calls of encoding and decoding.
  · have ha := CodecTable.acyclic_ofPlans h tag
    constructor
    · intro c v depth hdepth
      exact Calling.returns_encodeText ha hdepth
    · intro c text depth hdepth
      exact Calling.returns_decodeText ha hdepth
  · exact GeneratorConfig.acyclic_plans (TypeGraph.loadedGraph_of_load hs) hu
  · exact Calling.acyclic_iff_returns

namespace Example

/-- A class that refers to itself and to another class, which refers back to it.  Each of the class
and its subclass is listed as a subtype of the other. -/
def treePlans : List CodecPlan :=
  [.object ⟨"Node", false, none, ["Leaf"],
      [⟨"next", "next", false, .nested (.generated "Node")⟩,
        ⟨"tree", "tree", false, .nested (.generated "Tree")⟩]⟩,
    .object ⟨"Leaf", false, some "Node", ["Node"], [⟨"size", "size", false, .primitive .int⟩]⟩,
    .object ⟨"Tree", false, none, [], [⟨"root", "root", false, .nested (.generated "Node")⟩]⟩]

end Example

/-- In the plans of a tree no class is above itself. -/
private theorem acyclic_treePlans : CodecPlan.Acyclic Example.treePlans :=
  CodecPlan.acyclic_of_rank (fun name => if name = "Leaf" then 1 else 0) (by decide)

/-- A node with a leaf behind it, in a tree with a root of the same class: the calls return for a
value that is nested three deep, and for its text. -/
theorem codecs_return_of_tree :
    CodecPlan.Acyclic Example.treePlans ∧
    (Calling.encodeText (.ofPlans CodecTable.defaultTag Example.treePlans) 24 (.generated "Node")
        (.object "Node" [("next", .object "Leaf" [("size", .int 1)]),
          ("tree", .object "Tree" [("root", .object "Node" [])])])).run =
      some (.ok ("\x7b\"_type_\":\"Node\",\"next\":\x7b\"_type_\":\"Leaf\",\"size\":1\x7d," ++
        "\"tree\":\x7b\"root\":\x7b\"_type_\":\"Node\"\x7d\x7d\x7d")) ∧
    (Calling.decodeText (.ofPlans CodecTable.defaultTag Example.treePlans) 174 (.generated "Node")
        "\x7b\"next\":\x7b\"_type_\":\"Leaf\"\x7d\x7d").run =
      some (.ok (.object "Node" [("next", .object "Leaf" [("size", .int 0)])])) := by
  have ⟨hencode, hdecode⟩ :=
    codecs_return.1 CodecTable.defaultTag Example.treePlans acyclic_treePlans
  refine ⟨acyclic_treePlans, ?_, ?_⟩
  -- The bounds for this value and for this text.
  · rw [hencode _ _ _ (by decide +kernel)]
    exact congrArg some (by decide +kernel)
  · rw [hdecode _ _ _ (by decide)]
    cbv

end GraphCodec
