import GraphCodec.Proofs.Codec.Closed
import GraphCodec.Proofs.Codec.Linking
import GraphCodec.Proofs.Codec.Text
import GraphCodec.Proofs.Generation.Generate

/-!
# Generated units are closed

Every name in the plans of a generated unit is that of a plan of the unit, because what a plan
refers to is reachable and every reachable type with a codec of its own has a plan.  A superclass
that adds fields and a subtype are classes that the program declares: the classes of a library stay
without fields and with nothing above them (`TypeGraph.LoadedGraph`).

So the table of a unit is closed (`GeneratorConfig.closed_link`), and encoding and decoding never
look up a codec in vain (`GeneratorConfig.generated_unit_is_closed`).
-/

namespace GraphCodec

namespace TypeGraph

variable {g : TypeGraph} {roots : List TypeId} {id : TypeId}

/-! ### Loaded graphs -/

/-- What holds of every graph that a schema is loaded into. -/
structure LoadedGraph (g : TypeGraph) : Prop where
  built : g.Built
  plain : g.LibraryPlain
  /-- The classes that every graph starts with are those of a library. -/
  standard : ∀ id : TypeId, TypeId.string.index ≤ id.index → id.index < TypeId.firstReserved →
    ∃ body, g.classBody? id = some body ∧ body.isLibrary

/-- The graph of a schema that loads is built from it, with the library as it should be. -/
theorem loadedGraph_of_load {s : Schema} {loaded : LoadedSchema} (h : s.load = .ok loaded) :
    loaded.graph.LoadedGraph :=
  ⟨Schema.built_of_load h, Schema.libraryPlain_of_load h, fun _ =>
    Schema.standard_of_load h⟩

/-- A class that the program declares is written by its own codec. -/
theorem LoadedGraph.classify_eq (hg : g.LoadedGraph) {body : ClassBody}
    (hbody : g.classBody? id = some body) (hlib : body.isLibrary = false) :
    g.classify id = .userClass id := by
  -- The places from 17 to 27 hold library classes, and this class is none of them.
  have hindex : id.index < 17 ∨ 28 ≤ id.index := by
    refine Decidable.byContradiction fun h => ?_
    obtain ⟨body', hbody', hlib'⟩ := hg.standard id (show 17 ≤ id.index by omega)
      (show id.index < 28 by omega)
    rw [hbody, Option.some.injEq] at hbody'
    rw [← hbody', hlib] at hlib'
    cases hlib'
  have hne : ∀ other : TypeId, 17 ≤ other.index → other.index < 28 → id ≠ other := by
    rintro other hlow hhigh rfl
    omega
  have hraw : id.isRawContainer = false := by
    rw [TypeId.isRawContainer, Bool.and_eq_false_iff, decide_eq_false_iff_not,
      decide_eq_false_iff_not]
    show ¬22 ≤ id.index ∨ ¬id.index ≤ 27
    omega
  -- None of the tests for classes of the library holds.
  rw [classify_of_classBody? hbody, classifyClass, hraw, if_neg Bool.false_ne_true,
    if_neg (hne .string (by decide) (by decide)), if_neg (hne .date (by decide) (by decide)),
    if_neg (hne .timestamp (by decide) (by decide)),
    if_neg (hne .localDate (by decide) (by decide)), if_neg (hne .object (by decide) (by decide)),
    hlib, if_neg Bool.false_ne_true]

/-- Nothing stands above the first superclass of a library, and it has no fields. -/
private theorem LoadedGraph.hasInheritedFields_eq_false (hg : g.LoadedGraph) {above : TypeId}
    {body : ClassBody} (habove : g.superclass? id = some above)
    (hbody : g.classBody? above = some body) (hlib : body.isLibrary) :
    g.hasInheritedFields id = false := by
  obtain ⟨hsuper, _, hfields⟩ := hg.plain above body hbody hlib
  have hnone : g.superclass? above = none := by rw [superclass?, hbody]; exact hsuper
  have hempty : g.serializableFields above = [] := by
    rw [serializableFields, hbody]
    simp [hfields]
  -- A library class has no superclass, so the ancestors end there.
  have hancestors : ∀ steps, ∀ a ∈ g.ancestorsWithin steps id, a = above := by
    intro steps a ha
    cases steps with
    | zero => cases ha
    | succ steps =>
      rw [ancestorsWithin, habove] at ha
      rcases List.mem_cons.1 ha with rfl | ha
      · rfl
      · cases steps with
        | zero => cases ha
        | succ steps =>
          rw [ancestorsWithin, hnone] at ha
          cases ha
  rw [hasInheritedFields, List.any_eq_false]
  intro a ha
  rw [hancestors _ a ((List.takeWhile_sublist _).subset ha), hempty]
  simp

/-- A superclass that adds fields is a class that the program declares. -/
theorem LoadedGraph.classify_superclass (hg : g.LoadedGraph) {above : TypeId}
    (hin : g.hasInheritedFields id) (habove : g.superclass? id = some above) :
    g.classify above = .userClass above := by
  have hparent : above ∈ (g.kind id).parents := by
    obtain ⟨body, hbody, hsuper⟩ := Option.bind_eq_some_iff.1 habove
    rw [parents_eq hbody]
    exact List.mem_append_left _ (Option.mem_toList.2 hsuper)
  obtain ⟨body, hbody⟩ := Option.isSome_iff_exists.1 (hg.built.consistent.parents id _ hparent).2
  refine hg.classify_eq hbody (Bool.eq_false_iff.2 fun hlib => ?_)
  -- The library class would have no fields, so none would be inherited.
  rw [hg.hasInheritedFields_eq_false habove hbody hlib] at hin
  cases hin

end TypeGraph

/-- What is found on the way is pending or comes next. -/
private theorem exists_of_mem_reach {α : Type} [DecidableEq α] {next : α → List α}
    {unseen pending : List α}
    {a : α} (h : a ∈ reach next unseen pending) : a ∈ pending ∨ ∃ b, a ∈ next b := by
  induction unseen, pending using reach.induct next with
  | case1 unseen =>
    rw [reach] at h
    cases h
  | case2 unseen b rest hmem ih =>
    rw [reach, if_pos hmem] at h
    -- The element is the next pending one, or it is found later.
    rcases List.mem_cons.1 h with rfl | h
    · exact Or.inl List.mem_cons_self
    · rcases ih h with h | h
      · rcases List.mem_append.1 h with h | h
        · exact Or.inr ⟨b, h⟩
        · exact Or.inl (List.mem_cons_of_mem _ h)
      · exact Or.inr h
  -- The element has been seen before and adds nothing.
  | case3 unseen b rest hmem ih =>
    rw [reach, if_neg hmem] at h
    rcases ih h with h | h
    · exact Or.inl (List.mem_cons_of_mem _ h)
    · exact Or.inr h

namespace TypeGraph

variable {g : TypeGraph} {roots : List TypeId} {id : TypeId}

/-- A subtype is a class that the program declares. -/
theorem LoadedGraph.classify_subtype (hg : g.LoadedGraph) {sub : TypeId}
    (hsub : sub ∈ g.subtypes id) : g.classify sub = .userClass sub := by
  rw [subtypes, sortByName, List.mem_mergeSort] at hsub
  -- Each subtype has something above it on the way.
  have hdirect : ∃ above, sub ∈ g.directSubtypes above := by
    rcases exists_of_mem_reach hsub with h | h
    · exact ⟨id, h⟩
    · exact h
  obtain ⟨above, habove⟩ := hdirect
  have hparent : above ∈ (g.kind sub).parents :=
    of_decide_eq_true (List.mem_filter.1 habove).2
  -- Only classes and interfaces have parents.
  cases hbody : g.classBody? sub with
  | none =>
    rw [TypeKind.parents_eq_nil hbody] at hparent
    cases hparent
  | some body =>
    -- A class of the library would have no parents.
    refine hg.classify_eq hbody (Bool.eq_false_iff.2 fun hlib => ?_)
    obtain ⟨hsuper, hinter, _⟩ := hg.plain sub body hbody hlib
    rw [parents_eq hbody, hsuper, hinter] at hparent
    cases hparent

/-- The names in the codec reference of a reachable type are those of reachable types with codecs of
their own. -/
theorem exists_of_mem_generatedNames {c : CodecRef} (h : g.Reach roots id)
    (hc : g.codecRef id = .ok c) {name : String} (hname : name ∈ c.generatedNames) :
    ∃ t, g.Reach roots t ∧ g.WrittenBy t t ∧ g.name t = name := by
  -- The types inside a type stand in front of it, so the induction is on places.
  induction hn : id.index using Nat.strongRecOn generalizing id c with
  | ind n ih =>
    subst hn
    have helement : ∀ {e : TypeId} {c : CodecRef}, e ∈ (g.classify id).elements →
        g.Reach roots e → g.codecRef e = .ok c → name ∈ c.generatedNames →
          ∃ t, g.Reach roots t ∧ g.WrittenBy t t ∧ g.name t = name := fun he hreach hok hmem =>
      ih _ (index_lt_of_mem_parts (elements_classify _ he)) hreach hok hmem rfl
    rw [codecRef_eq] at hc
    cases hid : g.classify id with
    | enum =>
      rw [hid] at hc
      cases hc
      exact ⟨id, h, Or.inl ⟨hid, rfl⟩, (List.mem_singleton.1 hname).symm⟩
    -- The codec of an applied class is that of the class.
    | userClass raw =>
      rw [hid] at hc
      cases hc
      exact ⟨raw, .rawClass h hid, Or.inr (classify_userClass_self hid),
        (List.mem_singleton.1 hname).symm⟩
    | sequence shape element =>
      rw [hid] at hc
      obtain ⟨e, he, rfl⟩ := Except.map_eq_ok.1 hc
      exact helement (by simp [hid, Classification.elements]) (.element h hid) he hname
    | map key value keys =>
      have hkeyMem : key ∈ (g.classify id).elements := by simp [hid, Classification.elements]
      have hvalueMem : value ∈ (g.classify id).elements := by simp [hid, Classification.elements]
      rw [hid] at hc
      cases keys with
      | text =>
        obtain ⟨v, hv, rfl⟩ := Except.map_eq_ok.1 hc
        exact helement hvalueMem (.value h hid) hv hname
      | parsed s =>
        obtain ⟨k, hk, hc⟩ := Except.bind_eq_ok.1 hc
        obtain ⟨v, hv, hc⟩ := Except.bind_eq_ok.1 hc
        cases hc
        rcases List.mem_append.1 hname with hname | hname
        · exact helement hkeyMem (.key h hid) hk hname
        · exact helement hvalueMem (.value h hid) hv hname
      | paired =>
        obtain ⟨k, hk, hc⟩ := Except.bind_eq_ok.1 hc
        obtain ⟨v, hv, hc⟩ := Except.bind_eq_ok.1 hc
        cases hc
        rcases List.mem_append.1 hname with hname | hname
        · exact helement hkeyMem (.key h hid) hk hname
        · exact helement hvalueMem (.value h hid) hv hname
    -- Types that are not supported have no codec reference, and other codecs have no names.
    | missingTypeArguments =>
      rw [hid] at hc
      cases hc
    | unsupported why =>
      rw [hid] at hc
      cases hc
    | _ =>
      rw [hid] at hc
      cases hc
      cases hname

/-- The names in the codec of a field are those in the codec reference of its type. -/
private theorem mem_generatedNames_of_fieldEncoding {e : FieldEncoding}
    (he : g.fieldEncoding id = .ok e) {name : String} (hname : name ∈ e.codec.generatedNames) :
    ∃ c, g.codecRef id = .ok c ∧ name ∈ c.generatedNames := by
  unfold fieldEncoding at he
  split at he
  -- Only a field with a codec of its own has names.
  case h_4 =>
    obtain ⟨c, hc, rfl⟩ := Except.map_eq_ok.1 he
    exact ⟨c, hc, hname⟩
  all_goals
    cases he
    cases hname

end TypeGraph

/-! ### Generated units -/

namespace GeneratorConfig

open TypeGraph CodecTable

variable {g : TypeGraph} {roots : List TypeId} {c : GeneratorConfig} {u : GeneratedUnit}

/-- The plans of a unit are those of the reachable types with codecs of their own. -/
theorem mem_plans_iff (hg : g.Consistent) (hu : c.generate g roots = .ok u) {plan : CodecPlan} :
    plan ∈ u.plans ↔ ∃ id, g.Reach roots id ∧ g.WrittenBy id id ∧
      g.plan c.droppedStart id = .ok plan := by
  obtain ⟨hs, -, hplans⟩ := generate_eq_ok hg hu
  have hplans := Except.mapM_eq_ok.2 hplans
  constructor
  -- Each plan is that of a type in the generation order.
  · intro hmem
    obtain ⟨id, hid, hplan⟩ := Except.exists_of_mem_mapM hplans hmem
    obtain ⟨hreach, hwritten⟩ := (mem_order_iff hg hs).1 hid
    exact ⟨id, hreach, hwritten, hplan⟩
  -- Each such type is in the generation order, so its plan is among those of the unit.
  · rintro ⟨id, hreach, hwritten, hplan⟩
    obtain ⟨b, hb, heq⟩ :=
      Except.exists_mem_of_mapM hplans ((mem_order_iff hg hs).2 ⟨hreach, hwritten⟩)
    rw [hplan, Except.ok.injEq] at heq
    exact heq ▸ hb

/-- A reachable type with a codec of its own has a plan under its name. -/
theorem exists_mem_plans (hg : g.Consistent) (hu : c.generate g roots = .ok u) {id : TypeId}
    (h : g.Reach roots id) (hid : g.WrittenBy id id) :
    ∃ plan ∈ u.plans, plan.typeName = g.name id := by
  obtain ⟨hs, -, -⟩ := generate_eq_ok hg hu
  obtain ⟨plan, hplan⟩ := exists_plan c.droppedStart hs h hid
  exact ⟨plan, (mem_plans_iff hg hu).2 ⟨id, h, hid, hplan⟩, typeName_of_plan hplan⟩

/-- A reachable class of the program has the plan of an object, which says what the class is. -/
theorem exists_object_mem_plans (hg : g.Consistent) (hu : c.generate g roots = .ok u) {id : TypeId}
    (h : g.Reach roots id) (hid : g.classify id = .userClass id) :
    ∃ p, .object p ∈ u.plans ∧ g.PlannedObject c.droppedStart id p := by
  obtain ⟨hs, -, -⟩ := generate_eq_ok hg hu
  obtain ⟨plan, hplan⟩ := exists_plan c.droppedStart hs h (Or.inr hid)
  cases plan with
  | object p =>
    exact ⟨p, (mem_plans_iff hg hu).2 ⟨id, h, Or.inr hid, hplan⟩, (plan_eq_object hplan).1⟩
  -- The plan of an enum would belong to an enum.
  | enum p =>
    obtain ⟨body, hbody, _⟩ := classify_eq_userClass hid
    rw [classBody?, (plan_eq_enum hplan).1] at hbody
    cases hbody

/-- The plan of an object is that of a reachable class of the program. -/
theorem exists_of_object_mem_plans (hg : g.Consistent) (hu : c.generate g roots = .ok u)
    {p : ObjectPlan} (hp : .object p ∈ u.plans) :
    ∃ id, g.Reach roots id ∧ g.classify id = .userClass id ∧
      g.PlannedObject c.droppedStart id p := by
  obtain ⟨id, hreach, hwritten, hplan⟩ := (mem_plans_iff hg hu).1 hp
  obtain ⟨hplanned, body, hbody⟩ := plan_eq_object hplan
  rcases hwritten with ⟨henum, _⟩ | hclass
  · obtain ⟨variants, hk⟩ := classify_eq_enum henum
    rw [classBody?, hk] at hbody
    cases hbody
  · exact ⟨id, hreach, hclass, hplanned⟩

/-- Two plans of a unit with one name are one plan. -/
theorem eq_of_typeName_eq (hg : g.Consistent) (hu : c.generate g roots = .ok u)
    {p q : CodecPlan} (hp : p ∈ u.plans) (hq : q ∈ u.plans) (h : p.typeName = q.typeName) :
    p = q := by
  obtain ⟨a, _, ha, hplan⟩ := (mem_plans_iff hg hu).1 hp
  obtain ⟨b, _, hb, hplan'⟩ := (mem_plans_iff hg hu).1 hq
  -- The name of a plan is that of its type.
  have hab : a = b := hg.eq_of_name_eq ha hb (by
    rw [← typeName_of_plan hplan, h, typeName_of_plan hplan'])
  rw [hab, hplan', Except.ok.injEq] at hplan
  exact hplan.symm

/-- A superclass that is named in a plan has a plan. -/
theorem exists_superclass_plan (hg : g.LoadedGraph) (hu : c.generate g roots = .ok u)
    {p : ObjectPlan} (hp : .object p ∈ u.plans) {name : String} (hname : p.superclass = some name) :
    ∃ q, .object q ∈ u.plans ∧ q.typeName = name := by
  have hcons := hg.built.consistent
  obtain ⟨id, hreach, hclass, hplanned⟩ := exists_of_object_mem_plans hcons hu hp
  rw [hplanned.superclass] at hname
  split at hname
  case isTrue hin =>
    -- The superclass adds fields, so it is reachable.
    obtain ⟨above, habove, rfl⟩ := Option.map_eq_some_iff.1 hname
    obtain ⟨q, hq, hplannedAbove⟩ := exists_object_mem_plans hcons hu
      (.superclass hreach hclass hin habove) (hg.classify_superclass hin habove)
    exact ⟨q, hq, hplannedAbove.typeName⟩
  case isFalse => cases hname

/-- A subtype that is named in a plan has a plan, which is not abstract. -/
theorem exists_subtype_plan (hg : g.LoadedGraph) (hu : c.generate g roots = .ok u)
    {p : ObjectPlan} (hp : .object p ∈ u.plans) {name : String} (hname : name ∈ p.subtypes) :
    ∃ q, .object q ∈ u.plans ∧ q.typeName = name ∧ q.isAbstract = false := by
  have hcons := hg.built.consistent
  obtain ⟨id, hreach, hclass, hplanned⟩ := exists_of_object_mem_plans hcons hu hp
  rw [hplanned.subtypes] at hname
  obtain ⟨sub, hsub, rfl⟩ := List.mem_map.1 hname
  obtain ⟨hmem, habstract⟩ := List.mem_filter.1 hsub
  -- A subtype is reachable where its supertype is.
  obtain ⟨q, hq, hplannedSub⟩ := exists_object_mem_plans hcons hu
    (.subtype hreach hclass hmem) (hg.classify_subtype hmem)
  refine ⟨q, hq, hplannedSub.typeName, ?_⟩
  rw [hplannedSub.isAbstract, ← Bool.not_eq_true']
  exact habstract

/-- A name in the codec of a field has a plan. -/
theorem exists_field_plan (hg : g.Consistent) (hu : c.generate g roots = .ok u)
    {p : ObjectPlan} (hp : .object p ∈ u.plans) {f : FieldPlan} (hf : f ∈ p.fields)
    {name : String} (hname : name ∈ f.encoding.codec.generatedNames) :
    ∃ q ∈ u.plans, q.typeName = name := by
  obtain ⟨id, hreach, hclass, hplanned⟩ := exists_of_object_mem_plans hg hu hp
  obtain ⟨field, hfield, hplan⟩ := Except.exists_of_mem_mapM hplanned.fields hf
  obtain ⟨encoding, hencoding, hplan⟩ := Except.bind_eq_ok.1 hplan
  cases hplan
  obtain ⟨ref, href, hname⟩ := mem_generatedNames_of_fieldEncoding hencoding hname
  obtain ⟨t, ht, hwritten, rfl⟩ :=
    -- The type of the field is reachable, and so is what its codec names.
    exists_of_mem_generatedNames (.field hreach hclass hfield) href hname
  exact exists_mem_plans hg hu ht hwritten

/-! ### The tables of units -/

/-- The table of a unit has the codec of every plan. -/
theorem contains_link (hg : g.Consistent) (hu : c.generate g roots = .ok u) {plan : CodecPlan}
    (h : plan ∈ u.plans) : u.link.contains plan.typeName := by
  have hnodup := nodup_typeName hg hu
  rw [contains, Bool.or_eq_true]
  -- Objects and enums are found in their own lists.
  cases plan with
  | object p =>
    left
    show ((ofPlans u.tagMember u.plans).object? p.typeName).isSome
    rw [(object?_ofPlans hnodup).2 ⟨h, rfl⟩]
    rfl
  | enum p =>
    right
    show ((ofPlans u.tagMember u.plans).enum? p.typeName).isSome
    rw [(enum?_ofPlans hnodup).2 ⟨h, rfl⟩]
    rfl

/-- The table of a unit has the codecs of everything that is reachable. -/
theorem knows_of_codecRef (hg : g.Consistent) (hu : c.generate g roots = .ok u) {id : TypeId}
    {ref : CodecRef} (h : g.Reach roots id) (href : g.codecRef id = .ok ref) :
    u.link.Knows ref := by
  intro name hname
  obtain ⟨t, ht, hwritten, rfl⟩ := exists_of_mem_generatedNames h href hname
  obtain ⟨plan, hplan, htypeName⟩ := exists_mem_plans hg hu ht hwritten
  rw [← htypeName]
  exact contains_link hg hu hplan

/-- The table of a unit is closed. -/
theorem closed_link (hg : g.LoadedGraph) (hu : c.generate g roots = .ok u) : u.link.Closed := by
  have hcons := hg.built.consistent
  have hobject : ∀ q, .object q ∈ u.plans → (u.link.object? q.typeName).isSome := by
    intro q hq
    rw [GeneratedUnit.link, (object?_ofPlans (nodup_typeName hcons hu)).2 ⟨hq, rfl⟩]
    rfl
  exact {
    superclass := fun p hp name hname => by
      obtain ⟨q, hq, rfl⟩ := exists_superclass_plan hg hu (mem_objects_ofPlans hp) hname
      exact hobject q hq
    subtypes := fun p hp name hname => by
      obtain ⟨q, hq, rfl, _⟩ := exists_subtype_plan hg hu (mem_objects_ofPlans hp) hname
      exact hobject q hq
    fields := fun p hp f hf name hname => by
      obtain ⟨q, hq, rfl⟩ := exists_field_plan hcons hu (mem_objects_ofPlans hp) hf hname
      exact contains_link hcons hu hq }

/-- A generated unit is closed.  Every superclass and every subtype that is named in a plan has the
plan of an object, which is not abstract for a subtype, and every name in the codec of a field has a
plan.  So with the table of the unit, whatever is reachable is decoded without looking up a codec in
vain, and encoding looks one up in vain only for an object at a position of `std.Object`. -/
theorem generated_unit_is_closed {s : Schema} {loaded : LoadedSchema} (hs : s.load = .ok loaded)
    (hu : c.generateSchema loaded = .ok u) :
    (∀ p, .object p ∈ u.plans →
      (∀ name, p.superclass = some name → ∃ q, .object q ∈ u.plans ∧ q.typeName = name) ∧
      (∀ name ∈ p.subtypes, (∃ q, .object q ∈ u.plans ∧ q.typeName = name) ∧
        ∀ q, .object q ∈ u.plans → q.typeName = name → q.isAbstract = false) ∧
      ∀ f ∈ p.fields, ∀ name ∈ f.encoding.codec.generatedNames,
        ∃ q ∈ u.plans, q.typeName = name) ∧
    ∀ id ref, loaded.graph.Reach loaded.roots id → loaded.graph.codecRef id = .ok ref →
      (∀ v name, u.link.encode ref v = .error (.unknownCodec name) → u.link.ObjectAtAny ref v) ∧
      ∀ text name, u.link.decode ref text ≠ .error (.unknownCodec name) := by
  have hg := loadedGraph_of_load hs
  have hcons := hg.built.consistent
  have hclosed := closed_link hg hu
  constructor
  -- The plans of the unit name nothing without a plan.
  · intro p hp
    refine ⟨fun name => exists_superclass_plan hg hu hp, fun name hname => ?_,
      fun f hf name => exists_field_plan hcons hu hp hf⟩
    obtain ⟨q, hq, htypeName, habstract⟩ := exists_subtype_plan hg hu hp hname
    refine ⟨⟨q, hq, htypeName⟩, fun q' hq' htypeName' => ?_⟩
    -- Two plans with the name of the subtype are one.
    have heq := eq_of_typeName_eq hcons hu hq' hq (htypeName'.trans htypeName.symm)
    rw [CodecPlan.object.injEq] at heq
    rw [heq, habstract]
  -- With a closed table nothing that is known needs an unknown codec.
  · intro id ref hreach href
    have hknows := knows_of_codecRef hcons hu hreach href
    constructor
    · intro v name h
      rw [CodecTable.encode_eq, Except.map_eq_error] at h
      exact hclosed.objectAtAny_of_unknownCodec hknows (encodeNonNull_of_encodeJson h)
    · intro text name h
      -- A text that is not read needs no codec at all.
      unfold CodecTable.decode at h
      split at h
      · exact hclosed.decodeJson_ne_unknownCodec hknows h
      · cases h

/-- A dog is reachable from an owner of pets, through the list of pets. -/
-- The owner has a field with the list of pets, and a dog is a pet.
private theorem reach_dog : Example.petGraph.Reach [⟨35⟩] ⟨34⟩ := by
  have hfields : Example.petGraph.serializableFields ⟨35⟩ =
      [⟨"marks", ⟨37⟩, false, []⟩, ⟨"pets", ⟨36⟩, false, []⟩] := by cbv
  have hpets : Example.petGraph.Reach [⟨35⟩] ⟨36⟩ :=
    .field (.root List.mem_cons_self) (f := ⟨"pets", ⟨36⟩, false, []⟩) (by decide +kernel)
      (by rw [hfields]; simp)
  have hpet : Example.petGraph.Reach [⟨35⟩] ⟨33⟩ := .element hpets (by cbv)
  have hsubtypes : Example.petGraph.subtypes ⟨33⟩ = [⟨34⟩] := by cbv
  exact .subtype hpet (by decide +kernel) (by rw [hsubtypes]; exact List.mem_cons_self)

/-- The unit of the pets is closed: pets have a plan because dogs name them as their superclass, and
owners are encoded and decoded without an unknown codec. -/
theorem generated_pets_are_closed :
    Example.petSchema.load = .ok ⟨Example.petGraph, [⟨35⟩]⟩ ∧
    ∃ u dog, standard.generateSchema ⟨Example.petGraph, [⟨35⟩]⟩ = .ok u ∧
      .object dog ∈ u.plans ∧ dog.superclass = some "Pet" ∧
      (∃ q, .object q ∈ u.plans ∧ q.typeName = "Pet") ∧
      Example.petGraph.codecRef ⟨35⟩ = .ok (.generated "Owner") ∧
      (∀ v name, u.link.encode (.generated "Owner") v = .error (.unknownCodec name) →
        u.link.ObjectAtAny (.generated "Owner") v) ∧
      ∀ text name, u.link.decode (.generated "Owner") text ≠ .error (.unknownCodec name) := by
  have hload := Schema.load_petSchema
  have hcons := (Schema.built_of_load hload).consistent
  obtain ⟨u, hu⟩ := exists_generate hcons standard supported_petGraph
  obtain ⟨dog, hdog, hplanned⟩ := exists_object_mem_plans hcons hu reach_dog (by decide +kernel)
  have hsuper : dog.superclass = some "Pet" := by
    rw [hplanned.superclass]
    decide +kernel
  have href : Example.petGraph.codecRef ⟨35⟩ = .ok (.generated "Owner") := by
    rw [codecRef_eq]
    decide +kernel
  obtain ⟨hplans, hcodecs⟩ := generated_unit_is_closed hload hu
  obtain ⟨hencode, hdecode⟩ := hcodecs ⟨35⟩ _ (.root List.mem_cons_self) href
  exact ⟨hload, u, dog, hu, hdog, hsuper, (hplans dog hdog).1 "Pet" hsuper, href, hencode, hdecode⟩

end GeneratorConfig

end GraphCodec
