import GraphCodec.Proofs.Generation.Inheritance
import GraphCodec.Proofs.Types.Renaming

/-!
# Following superclasses through plans

Whether a plan names a superclass is decided for each class by looking at all classes above it,
while a codec follows the names from plan to plan.  The two agree: from the plan of a class the
names lead through the plans of its ancestors up to the topmost one with fields
(`GeneratorConfig.exists_climbs`), and end there.

So the fields that are written and read for a class are those of its ancestors, topmost first, and
its own, each once (`GeneratorConfig.handled_fields_of_plan`).
-/

namespace GraphCodec

/-! ### Ancestors with fields -/

namespace TypeGraph

open Relation

variable {g : TypeGraph} {id above a : TypeId}

/-- The ancestors of a class from its superclass up to the topmost one that has fields. -/
def fieldAncestors (g : TypeGraph) (id : TypeId) : List TypeId :=
  (g.ancestors id).rdropWhile fun a => (g.serializableFields a).isEmpty

/-- A class that inherits no fields has no ancestors with fields. -/
private theorem fieldAncestors_eq_nil (hg : g.LoadedGraph) (h : g.hasInheritedFields id = false) :
    g.fieldAncestors id = [] := by
  rw [fieldAncestors, List.rdropWhile_eq_nil_iff]
  intro a ha
  rw [hg.serializableFields_eq_nil h ha, List.isEmpty_nil]

/-- A class that inherits fields has its superclass as an ancestor and the ancestors of that. -/
theorem fieldAncestors_eq (hg : g.Built) (hs : g.superclass? id = some above)
    (h : g.hasInheritedFields id = true) :
    g.fieldAncestors id = above :: g.fieldAncestors above := by
  have hancestors := hg.ancestors_eq hs
  rw [hasInheritedFields, List.any_eq_true] at h
  obtain ⟨a, ha, hfields⟩ := h
  -- The ancestor with fields is the superclass or above it, so cutting off the top keeps the
  -- superclass.
  have hmem : a ∈ above :: g.ancestors above :=
    hancestors ▸ (List.takeWhile_sublist _).subset ha
  rw [fieldAncestors, fieldAncestors, hancestors]
  exact List.rdropWhile_cons_of_exists ⟨a, hmem, by simpa using hfields⟩

/-- The fields of a class itself that are written, in the order in which they are declared. -/
def declaredFields (g : TypeGraph) (id : TypeId) : List Field :=
  match g.classBody? id with
  | some body => body.fields.filter (·.isSerializable)
  | none => []

/-- The fields of a class are those it declares, in another order. -/
private theorem serializableFields_perm (g : TypeGraph) (id : TypeId) :
    (g.serializableFields id).Perm (g.declaredFields id) := by
  unfold serializableFields declaredFields
  cases g.classBody? id with
  | none => exact .refl _
  | some body => exact List.mergeSort_perm _ _

/-- The fields of a class itself come in ascending order of name. -/
private theorem pairwise_serializableFields (g : TypeGraph) (id : TypeId) :
    (g.serializableFields id).Pairwise fun a b => a.name ≤ b.name := by
  unfold serializableFields
  cases g.classBody? id with
  | none => exact .nil
  | some body => exact List.pairwise_mergeSort_name Field.name _

/-- The lineage of a class is the class with everything above it. -/
private theorem mem_lineage_iff (hg : g.Built) :
    a ∈ g.lineage id ↔ a = id ∨ TransGen g.Below id a := by
  rw [lineage, List.mem_reverse, List.mem_cons, hg.acyclic.mem_ancestors_iff hg.consistent]

end TypeGraph

/-! ### Climbing from plan to plan -/

namespace CodecTable

variable {t : CodecTable} {p q : ObjectPlan} {above : List ObjectPlan}

/-- The plans that are reached from a plan by following the names of superclasses, nearest first.
The last of them names no superclass. -/
inductive Climbs (t : CodecTable) : ObjectPlan → List ObjectPlan → Prop where
  | top {p : ObjectPlan} : p.superclass = none → Climbs t p []
  | up {p q : ObjectPlan} {name : String} {above : List ObjectPlan} :
    p.superclass = some name → t.object? name = some q → Climbs t q above →
      Climbs t p (q :: above)

/-- What is reached is given by the plan. -/
theorem Climbs.unique {above' : List ObjectPlan} (h : t.Climbs p above)
    (h' : t.Climbs p above') : above = above' := by
  induction h generalizing above' with
  -- Either plan names a superclass or not, and both climbs agree on it.
  | top hnone =>
    cases h' with
    | top => rfl
    | up hsome => rw [hnone] at hsome; cases hsome
  | up hsuper hq _ ih =>
    -- The superclass has one plan in the table.
    cases h' with
    | top hnone => rw [hnone] at hsuper; cases hsuper
    | up hsuper' hq' hclimb =>
      rw [hsuper, Option.some.injEq] at hsuper'
      rw [← hsuper', hq, Option.some.injEq] at hq'
      rw [ih (hq' ▸ hclimb), hq']

/-- The fields of some plans from the topmost one down to the last. -/
def handledFields (p : ObjectPlan) (above : List ObjectPlan) : List FieldPlan :=
  (above.reverse ++ [p]).flatMap (·.fields)

/-- The fields of a superclass come before those of the class. -/
theorem handledFields_cons (p q : ObjectPlan) (above : List ObjectPlan) :
    handledFields p (q :: above) = handledFields q above ++ p.fields := by
  simp [handledFields]

/-- With enough steps a chain is what is reached. -/
theorem Climbs.chainWithin_eq (h : t.Climbs p above) {steps : Nat} (hsteps : above.length ≤ steps) :
    t.chainWithin steps p = .ok (above.reverse ++ [p]) := by
  induction h generalizing steps with
  | top hnone =>
    cases steps with
    | zero => rfl
    | succ steps => simp only [chainWithin, hnone]; rfl
  -- A step is used up for the superclass.
  | @up p q name above hsuper hq _ ih =>
    rw [List.length_cons] at hsteps
    cases steps with
    | zero => omega
    | succ steps =>
      simp only [chainWithin, hsuper, object_eq_ok.2 hq]
      show (t.chainWithin steps q >>= _) = _
      rw [ih (by omega), List.reverse_cons]
      rfl

/-- Fields behind others are written behind them. -/
private theorem writeOwnFields_append (field? : String → Option Writer) (fs gs : List FieldPlan)
    (count : Nat) :
    writeOwnFields field? (fs ++ gs) count = do
      let (members, count) ← writeOwnFields field? fs count
      let (others, count) ← writeOwnFields field? gs count
      return (members ∘ others, count) := by
  induction fs generalizing count with
  -- Own fields without any in front of them.
  | nil =>
    rw [List.nil_append, writeOwnFields]
    simp only [bind, Except.bind]
    cases writeOwnFields field? gs count <;> rfl
  | cons f fs ih =>
    rw [List.cons_append, writeOwnFields, writeOwnFields]
    -- An error at the first field ends both sides.
    cases writeField field? f count with
    | error e => rfl
    | ok member =>
      simp only [bind, Except.bind, ih]
      -- So does an error at a later one.
      cases writeOwnFields field? fs member.2 with
      | error e => rfl
      | ok members =>
        simp only [pure, Except.pure]
        cases writeOwnFields field? gs members.2 <;> rfl

/-- With enough steps the fields that are written are those of the plans that are reached. -/
theorem Climbs.writeFieldsWithin_eq (h : t.Climbs p above) {steps : Nat}
    (hsteps : above.length ≤ steps) (field? : String → Option Writer) (count : Nat) :
    t.writeFieldsWithin field? steps p count =
      writeOwnFields field? (handledFields p above) count := by
  induction h generalizing steps count with
  -- Nothing is above the class, so only its own fields are written.
  | @top p hnone =>
    have hfields : handledFields p [] = p.fields := by simp [handledFields]
    rw [hfields]
    cases steps with
    | zero => rfl
    | succ steps => simp only [writeFieldsWithin, hnone]
  | @up p q name above hsuper hq _ ih =>
    rw [List.length_cons] at hsteps
    cases steps with
    | zero => omega
    -- The fields of the superclass are written first, with one step less.
    | succ steps =>
      rw [handledFields_cons, writeOwnFields_append, ← ih (show above.length ≤ steps by omega)]
      simp only [writeFieldsWithin, hsuper, object_eq_ok.2 hq]
      rfl

/-- The fields that are read into an object are those of the plans that are reached. -/
private theorem Climbs.readInto_eq (h : t.Climbs p above) (hsteps : above.length ≤ t.objects.length)
    (members : List (String × Json)) (fields : List (String × Value)) :
    t.readInto p members fields =
      -- The fields are those of the chain, which is what is reached.
      (t.readFields members (handledFields p above)).map (assign fields) := by
  rw [readInto, chainFields, chain, h.chainWithin_eq hsteps]
  show (t.readFields members (handledFields p above) >>= _) = _
  cases t.readFields members (handledFields p above) <;> rfl

end CodecTable

/-! ### Climbing in the table of a unit -/

namespace GeneratorConfig

open TypeGraph CodecTable

variable {g : TypeGraph} {roots : List TypeId} {c : GeneratorConfig} {u : GeneratedUnit}
  {id : TypeId} {p : ObjectPlan}

/-- The ancestors of a class that add fields make a chain with the class. -/
private theorem chain_fieldAncestors (hg : g.LoadedGraph) (id : TypeId) :
    Chain g id ((g.fieldAncestors id).reverse ++ [id]) := by
  induction id using hg.built.acyclic.induction hg.built.consistent with
  -- Without a superclass nothing is inherited.
  | top id hs =>
    have hin : g.hasInheritedFields id = false := Bool.eq_false_iff.2 fun h => by
      obtain ⟨above, habove⟩ := exists_superclass h
      rw [hs] at habove
      cases habove
    rw [fieldAncestors_eq_nil hg hin]
    exact .alone hin
  | step id above hs ih =>
    cases hin : g.hasInheritedFields id with
    -- The chain of the superclass is continued by the class.
    | true =>
      rw [fieldAncestors_eq hg.built hs hin, List.reverse_cons]
      exact .behind hin hs ih
    -- Nothing is inherited from above, so the chain starts here.
    | false =>
      rw [fieldAncestors_eq_nil hg hin]
      exact .alone hin

/-- The ancestors that add fields are part of the lineage. -/
private theorem fieldAncestors_sublist (g : TypeGraph) (id : TypeId) :
    ((g.fieldAncestors id).reverse ++ [id]).Sublist (g.lineage id) := by
  rw [lineage, List.reverse_cons]
  exact (List.rdropWhile_prefix _ _).sublist.reverse.append_right [id]

section Link

variable (hg : g.LoadedGraph) (hu : c.generate g roots = .ok u)

include hg hu

/-- A reachable class of the program has the plan of an object in a unit. -/
theorem exists_planned_object (hreach : g.Reach roots id) (hclass : g.classify id = .userClass id) :
    ∃ p, .object p ∈ u.plans ∧ g.plan c.droppedStart id = .ok (.object p) := by
  have hcons := hg.built.consistent
  obtain ⟨p, hp, hplanned⟩ := exists_object_mem_plans hcons hu hreach hclass
  obtain ⟨a, -, ha, hplan⟩ := (mem_plans_iff hcons hu).1 hp
  -- The plan is one of the class, since no other class has its name.
  have heq : a = id := hcons.eq_of_name_eq ha (Or.inr hclass) (by
    rw [← typeName_of_plan hplan, ← hplanned.typeName]
    rfl)
  exact ⟨p, hp, heq ▸ hplan⟩

/-- The names of superclasses lead from the plan of a class through those of its ancestors up to the
topmost one with fields. -/
theorem exists_climbs (hreach : g.Reach roots id) (hclass : g.classify id = .userClass id)
    (hp : g.PlannedObject c.droppedStart id p) :
    ∃ above, u.link.Climbs p above ∧
      List.Forall₂ (fun a q => g.plan c.droppedStart a = .ok (.object q))
        (g.fieldAncestors id) above := by
  have hcons := hg.built.consistent
  induction id using hg.built.acyclic.induction hcons generalizing p with
  -- At the top there is no superclass to name.
  | top id hs =>
    refine ⟨[], .top ?_, ?_⟩
    · rw [hp.superclass, hs]
      split <;> rfl
    · rw [fieldAncestors, ancestors_eq_nil hs]
      exact .nil
  | step id above hs ih =>
    cases hin : g.hasInheritedFields id with
    | true =>
      -- A superclass that adds fields is reachable, so the unit has a plan for it.
      have hreach' := hreach.superclass hclass hin hs
      have hclass' := hg.classify_superclass hin hs
      obtain ⟨q, hq, hplan⟩ := exists_planned_object hg hu hreach' hclass'
      have hplanned := (plan_eq_object hplan).1
      obtain ⟨plans, hclimbs, hplans⟩ := ih hreach' hclass' hplanned
      have hsuper : p.superclass = some q.typeName := by
        rw [hp.superclass, hin, if_pos rfl, hs, Option.map_some, hplanned.typeName]
      refine ⟨q :: plans, .up hsuper (object?_link hcons hu hq) hclimbs, ?_⟩
      rw [fieldAncestors_eq hg.built hs hin]
      exact .cons hplan hplans
    -- Nothing above adds fields, so the plan names no superclass.
    | false =>
      refine ⟨[], .top ?_, ?_⟩
      · rw [hp.superclass, hin, if_neg Bool.false_ne_true]
      · rw [fieldAncestors_eq_nil hg hin]
        exact .nil

end Link

open Relation in
/-- The fields that a codec of a generated unit writes and reads are those of its class and of all
classes above it, each once.  The names of superclasses in the plans lead through the plans of the
ancestors of the class, from its superclass up to the topmost one with fields, and end there.  What
is written and read are the fields of these plans from the topmost one down: the plans of the fields
of all classes along the lineage, in ascending order of name for each class. -/
theorem handled_fields_of_plan {s : Schema} {loaded : LoadedSchema} (hs : s.load = .ok loaded)
    (hu : c.generateSchema loaded = .ok u) (hp : .object p ∈ u.plans) :
    ∃ id above, loaded.graph.Reach loaded.roots id ∧
      loaded.graph.classify id = .userClass id ∧
      loaded.graph.plan c.droppedStart id = .ok (.object p) ∧
      (u.link.Climbs p above ∧
        List.Forall₂ (fun a q => loaded.graph.plan c.droppedStart a = .ok (.object q))
          (loaded.graph.fieldAncestors id) above) ∧
      (∀ field? count, u.link.writeFieldsWithin field? u.link.objects.length p count =
        writeOwnFields field? (handledFields p above) count) ∧
      (∀ members fields, u.link.readInto p members fields =
        (u.link.readFields members (handledFields p above)).map (assign fields)) ∧
      List.Forall₂ loaded.graph.PlannedField (loaded.graph.allFields id) (handledFields p above) ∧
      (loaded.graph.lineage id).Nodup ∧
      (∀ a, a ∈ loaded.graph.lineage id ↔ a = id ∨ TransGen loaded.graph.Below id a) ∧
      ∀ a, (loaded.graph.serializableFields a).Perm (loaded.graph.declaredFields a) ∧
        (loaded.graph.serializableFields a).Pairwise fun f f' => f.name ≤ f'.name := by
  have hg := loadedGraph_of_load hs
  have hcons := hg.built.consistent
  obtain ⟨id, hreach, hclass, hplanned⟩ := exists_of_object_mem_plans hcons hu hp
  obtain ⟨p', hp', hplan⟩ := exists_planned_object hg hu hreach hclass
  -- There is one plan under the name of the class.
  have hname : p'.typeName = p.typeName := by
    rw [(plan_eq_object hplan).1.typeName, hplanned.typeName]
  rw [CodecPlan.object.inj (eq_of_typeName_eq hcons hu hp' hp hname)] at hplan
  obtain ⟨above, hclimbs, habove⟩ := exists_climbs hg hu hreach hclass hplanned
  -- The ancestors are different classes of the table, so its size is enough for the codec.
  have hchain := chain_fieldAncestors hg id
  have hle := hchain.length_le hg hu hreach hclass (fieldAncestors_sublist _ id)
  have hsteps : above.length ≤ u.link.objects.length := by
    rw [List.length_append, List.length_reverse, habove.length_eq] at hle
    exact Nat.le_of_succ_le hle
  -- The chain that the codec follows is the one that is climbed.
  obtain ⟨plans, hplans, hfields⟩ := hchain.exists_chainWithin hg hu hreach hclass hplanned
    (Nat.le_succ_of_le hle)
  rw [hclimbs.chainWithin_eq hsteps, Except.ok.injEq] at hplans
  rw [← hplans] at hfields
  exact ⟨id, above, hreach, hclass, hplan, ⟨hclimbs, habove⟩, hclimbs.writeFieldsWithin_eq hsteps,
    hclimbs.readInto_eq hsteps, hfields.fields, hg.built.nodup_lineage id,
    fun a => mem_lineage_iff hg.built, fun a =>
      ⟨serializableFields_perm _ a, pairwise_serializableFields _ a⟩⟩

/-- The class at the bottom of a network passes over the class without fields above it: its codec
writes the key of the topmost class and then its own fields. -/
theorem handled_fields_of_network :
    Example.networkSchema.load = .ok ⟨Example.networkGraph, [⟨36⟩]⟩ ∧
    ∃ u p, standard.generateSchema ⟨Example.networkGraph, [⟨36⟩]⟩ = .ok u ∧ .object p ∈ u.plans ∧
      p.typeName = "n$d" ∧
      ∃ above, u.link.Climbs p above ∧ above.map (·.typeName) = ["n.d", "Base"] ∧
        (handledFields p above).map (·.name) = ["key", "at", "up"] := by
  have hload := Schema.load_networkSchema
  have hcons := (Schema.built_of_load hload).consistent
  obtain ⟨u, hu⟩ := exists_generate hcons standard supported_networkGraph
  have hclass : Example.networkGraph.classify ⟨36⟩ = .userClass ⟨36⟩ := by cbv
  have hroot : Example.networkGraph.Reach [⟨36⟩] ⟨36⟩ := .root List.mem_cons_self
  obtain ⟨p, hp, hplanned⟩ := exists_object_mem_plans hcons hu hroot hclass
  obtain ⟨id, above, -, hclass', hplan, ⟨hclimbs, habove⟩, -, -, hfields, -⟩ :=
    handled_fields_of_plan hload hu hp
  -- The plan belongs to the class at the bottom, since no other class has its name.
  have hid : id = ⟨36⟩ := hcons.eq_of_name_eq (Or.inr hclass') (Or.inr hclass)
    ((plan_eq_object hplan).1.typeName.symm.trans hplanned.typeName)
  subst hid
  refine ⟨hload, u, p, hu, hp, hplanned.typeName.trans (by cbv), above, hclimbs, ?_, ?_⟩
  -- The class without fields is among the ancestors, since the topmost one has fields.
  · have hancestors : Example.networkGraph.fieldAncestors ⟨36⟩ = [⟨35⟩, ⟨34⟩] := by cbv
    have hnames := typeNames_of_plans (List.forall₂_map_right_iff.2 habove)
    rw [List.map_map, hancestors] at hnames
    exact hnames.trans (by cbv)
  -- The class at the bottom handles the field of the topmost class and its own ones.
  · have hall : (Example.networkGraph.allFields ⟨36⟩).map (·.name) = ["key", "at", "up"] := by cbv
    rw [map_name_of_planned hfields, hall]

end GeneratorConfig

end GraphCodec
