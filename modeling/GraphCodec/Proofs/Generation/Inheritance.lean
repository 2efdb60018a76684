import GraphCodec.Proofs.Generation.Closure
import GraphCodec.Proofs.Types.Lineage

/-!
# Inherited fields

The plan of a class leaves inherited fields to the plan of its superclass, and so on up to the first
class above which no class adds any.  In the table of a generated unit that chain of plans is found,
and it is short enough to be followed to its end, because its classes are different classes of the
table.  Its fields are those of all classes above the class and its own
(`GeneratorConfig.exists_chainFields`).
-/

namespace GraphCodec

namespace TypeGraph

variable {g : TypeGraph} {roots : List TypeId} {id above : TypeId}

/-- The names of the members for the fields of an object, inherited fields first. -/
def wireNames (g : TypeGraph) (dropped : Option String) (id : TypeId) : List String :=
  (g.lineage id).flatMap fun a =>
    (g.serializableFields a).map fun f => wireName dropped (g.serializableFields a) f.name

/-- Nothing stands above the topmost type, and it has no fields. -/
private theorem LoadedGraph.object_plain (hg : g.LoadedGraph) :
    g.superclass? .object = none ∧ g.serializableFields .object = [] := by
  obtain ⟨body, hbody, hlib⟩ := hg.standard .object (by decide) (by decide)
  obtain ⟨hsuper, -, hfields⟩ := hg.plain .object body hbody hlib
  constructor
  · rw [superclass?_eq_some hbody, hsuper]
  · rw [serializableFields, hbody]
    simp [hfields]

/-- Inherited fields are those of the superclass and those that it inherits. -/
private theorem Built.hasInheritedFields_eq (hg : g.Built) (h : g.superclass? id = some above) :
    g.hasInheritedFields id =
      (decide (above ≠ .object) &&
        (!(g.serializableFields above).isEmpty || g.hasInheritedFields above)) := by
  rw [hasInheritedFields, hg.ancestors_eq h, List.takeWhile_cons]
  by_cases heq : above = .object
  · simp [heq]
  · simp [heq, hasInheritedFields]

/-- If no fields are inherited, the classes above a class have none. -/
theorem LoadedGraph.serializableFields_eq_nil (hg : g.LoadedGraph)
    (h : g.hasInheritedFields id = false) {a : TypeId} (ha : a ∈ g.ancestors id) :
    g.serializableFields a = [] := by
  induction id using hg.built.acyclic.induction hg.built.consistent with
  -- At the top there are no classes above.
  | top id hs =>
    rw [ancestors_eq_nil hs] at ha
    cases ha
  | step id above hs ih =>
    rw [hg.built.ancestors_eq hs] at ha
    -- Above the class stands the root of all classes, or another class with ancestors of its own.
    by_cases heq : above = .object
    · obtain ⟨hsuper, hfields⟩ := hg.object_plain
      rw [heq, ancestors_eq_nil hsuper, List.mem_singleton] at ha
      rw [ha, hfields]
    · rw [hg.built.hasInheritedFields_eq hs, decide_eq_true heq, Bool.true_and,
        Bool.or_eq_false_iff, Bool.not_eq_false', List.isEmpty_iff] at h
      cases List.mem_cons.1 ha with
      -- The class above is the next one, or one further up.
      | inl hself => rw [hself, h.1]
      | inr ha => exact ih h.2 ha

/-- Where no fields are inherited, what is gathered from fields along a lineage is that of the
class itself. -/
theorem LoadedGraph.flatMap_lineage {α : Type} (hg : g.LoadedGraph)
    (h : g.hasInheritedFields id = false) (f : List Field → List α) (hf : f [] = []) :
    ((g.lineage id).flatMap fun a => f (g.serializableFields a)) =
      f (g.serializableFields id) := by
  -- The ancestors contribute nothing.
  have hnil : (g.ancestors id).reverse.flatMap (fun a => f (g.serializableFields a)) = [] := by
    rw [List.flatMap_eq_nil_iff]
    intro a ha
    rw [hg.serializableFields_eq_nil h (List.mem_reverse.1 ha), hf]
  rw [lineage, List.reverse_cons, List.flatMap_append, hnil, List.nil_append,
    List.flatMap_singleton]

/-- A class that inherits fields has a superclass. -/
theorem exists_superclass (h : g.hasInheritedFields id) :
    ∃ above, g.superclass? id = some above := by
  cases hs : g.superclass? id with
  | some above => exact ⟨above, rfl⟩
  | none =>
    rw [hasInheritedFields, ancestors_eq_nil hs] at h
    cases h

/-! ### The plans of fields -/

/-- What the plan of a field says. -/
structure PlannedField (g : TypeGraph) (f : Field) (p : FieldPlan) : Prop where
  name : p.name = f.name
  encoding : g.fieldEncoding f.type = .ok p.encoding

/-- Plans of fields have the names of the fields. -/
theorem map_name_of_planned {fields : List Field} {plans : List FieldPlan}
    (h : List.Forall₂ g.PlannedField fields plans) :
    plans.map (·.name) = fields.map (·.name) := by
  induction h with
  | nil => rfl
  | cons hp _ ih => rw [List.map_cons, List.map_cons, hp.name, ih]

/-- Whether some plans are those of all fields of a class, inherited fields first. -/
structure PlannedFields (g : TypeGraph) (dropped : Option String) (id : TypeId)
    (plans : List FieldPlan) : Prop where
  fields : List.Forall₂ g.PlannedField (g.allFields id) plans
  wireNames : plans.map (·.wireName) = g.wireNames dropped id

/-- The plans of the fields that a class itself declares. -/
theorem PlannedObject.ownFields {dropped : Option String} {p : ObjectPlan}
    (h : g.PlannedObject dropped id p) :
    List.Forall₂ g.PlannedField (g.serializableFields id) p.fields ∧
      p.fields.map (·.wireName) = (g.serializableFields id).map fun f =>
        wireName dropped (g.serializableFields id) f.name := by
  have hfields := Except.mapM_eq_ok.1 h.fields
  -- The fields that are planned stay behind beside those that the names depend on.
  generalize g.serializableFields id = declared at hfields ⊢
  have hall : ∀ {fields : List Field} {plans : List FieldPlan},
      List.Forall₂ (fun f p => g.fieldPlan dropped declared f = .ok p) fields plans →
        List.Forall₂ g.PlannedField fields plans ∧
          plans.map (·.wireName) = fields.map fun f => wireName dropped declared f.name := by
    intro fields plans hfields
    induction hfields with
    | nil => exact ⟨.nil, rfl⟩
    | @cons f p fields plans hp _ ih =>
      -- Each field is planned with the codec of its type, under the name that is chosen for it.
      obtain ⟨e, he, hp⟩ := Except.bind_eq_ok.1 hp
      cases hp
      exact ⟨.cons ⟨rfl, he⟩ ih.1, by rw [List.map_cons, List.map_cons, ih.2]⟩
  exact hall hfields

/-- The plans of all fields are those of the inherited ones and of the own ones. -/
theorem PlannedFields.append (hg : g.Built) {dropped : Option String}
    (hs : g.superclass? id = some above) {plans : List FieldPlan}
    (h : g.PlannedFields dropped above plans) {p : ObjectPlan}
    (hp : g.PlannedObject dropped id p) : g.PlannedFields dropped id (plans ++ p.fields) := by
  obtain ⟨hown, hnames⟩ := hp.ownFields
  constructor
  -- The lineage ends with the class itself.
  · rw [allFields, hg.lineage_eq hs, List.flatMap_append, List.flatMap_singleton]
    exact List.rel_append h.fields hown
  · rw [List.map_append, h.wireNames, hnames, TypeGraph.wireNames, TypeGraph.wireNames,
      hg.lineage_eq hs, List.flatMap_append, List.flatMap_singleton]

/-- A class that inherits no fields has its own ones only. -/
private theorem PlannedObject.plannedFields (hg : g.LoadedGraph) {dropped : Option String}
    (h : g.hasInheritedFields id = false) {p : ObjectPlan} (hp : g.PlannedObject dropped id p) :
    g.PlannedFields dropped id p.fields := by
  obtain ⟨hown, hnames⟩ := hp.ownFields
  constructor
  · rw [allFields, hg.flatMap_lineage h (fun fields => fields) rfl]
    exact hown
  · rw [hnames, TypeGraph.wireNames, hg.flatMap_lineage h
      (fun fields => fields.map fun f => wireName dropped fields f.name) rfl]

end TypeGraph

/-! ### Chains of plans -/

namespace GeneratorConfig

open TypeGraph CodecTable

variable {g : TypeGraph} {roots : List TypeId} {c : GeneratorConfig} {u : GeneratedUnit}

/-- The table of a unit has the plan of a class of the program under its name. -/
theorem object?_link (hg : g.Consistent) (hu : c.generate g roots = .ok u) {p : ObjectPlan}
    (hp : .object p ∈ u.plans) : u.link.object? p.typeName = some p :=
  (object?_ofPlans (nodup_typeName hg hu)).2 ⟨hp, rfl⟩

/-- The classes along a chain of plans, topmost first: a class that inherits fields stands behind
the chain of its superclass. -/
inductive Chain (g : TypeGraph) : TypeId → List TypeId → Prop where
  | alone {id : TypeId} : g.hasInheritedFields id = false → Chain g id [id]
  | behind {id above : TypeId} {ids : List TypeId} :
    g.hasInheritedFields id = true → g.superclass? id = some above → Chain g above ids →
      Chain g id (ids ++ [id])

/-- Each class has a chain of itself and of some of those above it. -/
private theorem exists_chain (hg : g.Built) (id : TypeId) :
    ∃ ids, Chain g id ids ∧ ids.Sublist (g.lineage id) := by
  induction id using hg.acyclic.induction hg.consistent with
  | top id hs =>
    -- Nothing is above the class, so nothing is inherited.
    refine ⟨[id], .alone (Bool.eq_false_iff.2 fun h => ?_), ?_⟩
    · obtain ⟨above, habove⟩ := exists_superclass h
      rw [hs] at habove
      cases habove
    · rw [lineage_eq_singleton hs]
  | step id above hs ih =>
    rw [hg.lineage_eq hs]
    -- Either fields are inherited and the chain goes on above, or it starts here.
    cases hin : g.hasInheritedFields id with
    | true =>
      obtain ⟨ids, hchain, hsub⟩ := ih
      exact ⟨ids ++ [id], .behind hin hs hchain, hsub.append (List.Sublist.refl [id])⟩
    | false => exact ⟨[id], .alone hin, List.sublist_append_right _ _⟩

section Link

variable (hg : g.LoadedGraph)

include hg

/-- The types of all fields of a reachable class are reachable, those of inherited fields too. -/
theorem reach_field {id : TypeId} (hreach : g.Reach roots id)
    (hclass : g.classify id = .userClass id) {f : Field} (hf : f ∈ g.allFields id) :
    g.Reach roots f.type := by
  induction id using hg.built.acyclic.induction hg.built.consistent with
  -- The class is the topmost one and has only its own fields.
  | top id hs =>
    rw [allFields, lineage_eq_singleton hs, List.flatMap_singleton] at hf
    exact .field hreach hclass hf
  | step id above hs ih =>
    -- If fields are inherited the superclass is reachable, and otherwise all fields are own ones.
    cases hin : g.hasInheritedFields id with
    | true =>
      rw [allFields, hg.built.lineage_eq hs, List.flatMap_append, List.flatMap_singleton] at hf
      cases List.mem_append.1 hf with
      | inl hf =>
        exact ih (.superclass hreach hclass hin hs) (hg.classify_superclass hin hs) hf
      | inr hf => exact .field hreach hclass hf
    | false =>
      rw [allFields, hg.flatMap_lineage hin (fun fields => fields) rfl] at hf
      exact .field hreach hclass hf

/-- Every class along a chain is a reachable class of the program. -/
private theorem Chain.reach {id : TypeId} {ids : List TypeId} (h : Chain g id ids)
    (hreach : g.Reach roots id) (hclass : g.classify id = .userClass id) :
    ∀ a ∈ ids, g.Reach roots a ∧ g.classify a = .userClass a := by
  induction h with
  -- The chain is the class alone.
  | alone _ =>
    intro a ha
    rw [List.mem_singleton.1 ha]
    exact ⟨hreach, hclass⟩
  -- The classes further up come before the class itself.
  | behind hin hs _ ih =>
    intro a ha
    cases List.mem_append.1 ha with
    | inl ha =>
      exact ih (.superclass hreach hclass hin hs) (hg.classify_superclass hin hs) a ha
    | inr ha =>
      rw [List.mem_singleton.1 ha]
      exact ⟨hreach, hclass⟩

variable (hu : c.generate g roots = .ok u)

include hu

/-- There are no more classes along a chain than in the table. -/
theorem Chain.length_le {id : TypeId} {ids : List TypeId} (h : Chain g id ids)
    (hreach : g.Reach roots id) (hclass : g.classify id = .userClass id)
    (hsub : ids.Sublist (g.lineage id)) : ids.length ≤ u.link.objects.length := by
  have hcons := hg.built.consistent
  have hids := h.reach hg hreach hclass
  -- Names tell the classes along a chain apart.
  have hnodup : (ids.map g.name).Nodup := by
    refine List.pairwise_map.2 (((hg.built.nodup_lineage id).sublist hsub).imp_of_mem ?_)
    intro a b ha hb hne heq
    exact hne (hcons.eq_of_name_eq (Or.inr (hids a ha).2) (Or.inr (hids b hb).2) heq)
  -- Each of the names is that of a plan in the table.
  have hsubset : ids.map g.name ⊆ u.link.objects.map (·.typeName) := by
    intro name hname
    obtain ⟨a, ha, rfl⟩ := List.mem_map.1 hname
    obtain ⟨p, hp, hplanned⟩ := exists_object_mem_plans hcons hu (hids a ha).1 (hids a ha).2
    rw [← hplanned.typeName]
    exact List.mem_map_of_mem (mem_objects_of_object? (object?_link hcons hu hp))
  have hle := hnodup.length_le_of_subset hsubset
  rwa [List.length_map, List.length_map] at hle

/-- A chain is followed to its end in as many steps as there are classes along it, and its fields
are all fields of the class. -/
theorem Chain.exists_chainWithin {id : TypeId} {ids : List TypeId} (h : Chain g id ids)
    (hreach : g.Reach roots id) (hclass : g.classify id = .userClass id) {p : ObjectPlan}
    (hp : g.PlannedObject c.droppedStart id p) {steps : Nat} (hsteps : ids.length ≤ steps + 1) :
    ∃ plans, u.link.chainWithin steps p = .ok plans ∧
      g.PlannedFields c.droppedStart id (plans.flatMap (·.fields)) := by
  have hcons := hg.built.consistent
  -- By induction on the chain; every class further up takes one step more.
  induction h generalizing p steps with
  | alone hin =>
    have hnone : p.superclass = none := by
      rw [hp.superclass, hin, if_neg Bool.false_ne_true]
    refine ⟨[p], ?_, ?_⟩
    · cases steps with
      | zero => rfl
      | succ steps => simp only [chainWithin, hnone]
    · rw [List.flatMap_singleton]
      exact hp.plannedFields hg hin
  | @behind id above ids hin hs hchain ih =>
    have hreach' : g.Reach roots above := .superclass hreach hclass hin hs
    have hclass' := hg.classify_superclass hin hs
    obtain ⟨q, hq, hplanned⟩ := exists_object_mem_plans hcons hu hreach' hclass'
    have hsuper : p.superclass = some q.typeName := by
      rw [hp.superclass, hin, if_pos rfl, hs, Option.map_some, hplanned.typeName]
    -- At least the superclass is along the chain, so there is a step left for it.
    have hpos : 0 < ids.length := by
      cases hchain <;> simp
    rw [List.length_append, List.length_singleton] at hsteps
    cases steps with
    | zero => omega
    | succ steps =>
      obtain ⟨plans, hplans, hfields⟩ :=
        ih hreach' hclass' hplanned (show ids.length ≤ steps + 1 by omega)
      refine ⟨plans ++ [p], ?_, ?_⟩
      · simp only [chainWithin, hsuper]
        rw [object_eq_ok.2 (object?_link hcons hu hq)]
        show (u.link.chainWithin steps q >>= _) = _
        rw [hplans]
        rfl
      · rw [List.flatMap_append, List.flatMap_singleton]
        exact hfields.append hg.built hs hp

/-- The fields that make up an object are found in the table of a unit: all fields of its class,
inherited fields first. -/
theorem exists_chainFields {id : TypeId} (hreach : g.Reach roots id)
    (hclass : g.classify id = .userClass id) {p : ObjectPlan}
    (hp : g.PlannedObject c.droppedStart id p) :
    ∃ plans, u.link.chainFields p = .ok plans ∧ g.PlannedFields c.droppedStart id plans := by
  obtain ⟨ids, hchain, hsub⟩ := exists_chain hg.built id
  have hle := hchain.length_le hg hu hreach hclass hsub
  obtain ⟨plans, hplans, hfields⟩ := hchain.exists_chainWithin hg hu hreach hclass hp
    (show ids.length ≤ u.link.objects.length + 1 by omega)
  exact ⟨_, by rw [chainFields, chain, hplans]; rfl, hfields⟩

end Link

end GeneratorConfig

end GraphCodec
