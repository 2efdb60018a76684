import GraphCodec.Proofs.Generation.Reach

/-!
# What planning does

Every type that is reachable, supported and has a codec of its own gets a plan
(`TypeGraph.exists_plan`), under its own name (`TypeGraph.typeName_of_plan`).

The types of the generation order are planned one after another.  A type is queued when its turn
comes, since only its own turn moves its record; so the plans are those of the types of the order,
one for each (`TypeGraph.planEach_eq_mapM`).
-/

namespace GraphCodec

/-! ### Moving records -/

namespace Registry

variable {r r' : Registry} {id x : TypeId} {source target : Progress}

/-- The record of a type is of that type. -/
theorem record?_type {c : CodecRecord} (h : r.record? id = some c) : c.type = id := by
  have := List.find?_some h
  exact of_decide_eq_true this

/-- Moving the record of a type leaves the records of other types as they are. -/
theorem record?_move (h : r.move id source target = .ok r') :
    r'.record? x =
      (r.record? x).map fun c => if c.type = id then { c with progress := target } else c := by
  unfold move at h
  -- Without a record of the type the move is refused.
  cases hc : r.record? id with
  | none =>
    rw [hc] at h
    cases h
  | some c =>
    rw [hc] at h
    dsimp only at h
    -- The record is at the source of the move and is replaced, or the move is refused.
    split at h
    case isTrue =>
      cases h
      unfold record?
      rw [List.find?_map]
      congr 2
      funext c
      show (decide ((if c.type = id then { c with progress := target } else c).type = x)) = _
      split <;> rfl
    case isFalse => cases h

/-- Moving the record of a type leaves those of others as they are. -/
private theorem record?_move_of_ne (h : r.move id source target = .ok r') (hx : x ≠ id) :
    r'.record? x = r.record? x := by
  rw [record?_move h]
  cases hc : r.record? x with
  | none => rfl
  | some c => simp [record?_type hc, hx]

/-- Moving the record of a type changes its progress. -/
private theorem record?_move_self (h : r.move id source target = .ok r') {c : CodecRecord}
    (hc : r.record? id = some c) : r'.record? id = some { c with progress := target } := by
  rw [record?_move h, hc]
  simp [record?_type hc]

/-- A record can be moved from the progress that it has. -/
private theorem exists_move (target : Progress) {c : CodecRecord} (hc : r.record? id = some c)
    (hp : c.progress = source) : ∃ r', r.move id source target = .ok r' := by
  unfold move
  rw [hc]
  dsimp only
  rw [if_pos hp]
  exact ⟨_, rfl⟩

/-- Whether a type waits for its plan. -/
def Queued (r : Registry) (id : TypeId) : Prop :=
  ∃ c, r.record? id = some c ∧ c.progress = .queued

/-- The plan of a type that waits for it can be started and completed, and only the record of this
type changes. -/
theorem Queued.exists_complete (h : r.Queued id) :
    ∃ r₁ r₂, r.start id = .ok r₁ ∧ r₁.complete id = .ok r₂ ∧
      (∀ x ≠ id, r₁.record? x = r.record? x) ∧
      ∀ x, r₂.record? x =
        (r.record? x).map fun c => if x = id then { c with progress := .complete } else c := by
  -- The record waits, so it can be started, and then completed.
  obtain ⟨c, hc, hp⟩ := h
  obtain ⟨r₁, hstart⟩ := exists_move .inProgress hc hp
  have hc₁ := record?_move_self hstart hc
  obtain ⟨r₂, hcomplete⟩ := exists_move .complete hc₁ rfl
  refine ⟨r₁, r₂, hstart, hcomplete, fun x => record?_move_of_ne hstart, fun x => ?_⟩
  -- The record of the type ends complete, and another one is not touched by either move.
  by_cases hx : x = id
  · subst hx
    rw [record?_move_self hcomplete hc₁, hc]
    simp
  · rw [record?_move_of_ne hcomplete hx, record?_move_of_ne hstart hx]
    simp [hx]

end Registry

namespace TypeGraph

variable {g : TypeGraph} {roots : List TypeId} {dropped : Option String} {id : TypeId}

/-! ### Plans of reachable types -/

/-- What the plan of a class says. -/
structure PlannedObject (g : TypeGraph) (dropped : Option String) (id : TypeId) (p : ObjectPlan) :
    Prop where
  typeName : p.typeName = g.name id
  isAbstract : p.isAbstract = g.isAbstract id
  superclass : p.superclass =
    if g.hasInheritedFields id then (g.superclass? id).map g.name else none
  subtypes : p.subtypes = (g.concreteSubtypes id).map g.name
  fields : (g.serializableFields id).mapM (g.fieldPlan dropped (g.serializableFields id)) =
    .ok p.fields

/-- The plan of an object says what its class is. -/
private theorem plannedObject_of_objectPlan {p : ObjectPlan} (h : g.objectPlan dropped id = .ok p) :
    g.PlannedObject dropped id p := by
  unfold objectPlan at h
  obtain ⟨fields, hfields, h⟩ := Except.bind_eq_ok.1 h
  cases h
  exact ⟨rfl, rfl, rfl, rfl, hfields⟩

/-- The plan of an object is that of a class or interface. -/
theorem plan_eq_object {p : ObjectPlan} (h : g.plan dropped id = .ok (.object p)) :
    g.PlannedObject dropped id p ∧ ∃ body, g.classBody? id = some body := by
  have hobject : (g.objectPlan dropped id).map CodecPlan.object = .ok (.object p) →
      g.PlannedObject dropped id p := by
    intro h
    obtain ⟨o, ho, heq⟩ := Except.map_eq_ok.1 h
    cases heq
    exact plannedObject_of_objectPlan ho
  -- Only classes and interfaces have the plan of an object.
  unfold plan at h
  split at h
  · cases h
  case h_2 body hk => exact ⟨hobject h, body, by rw [classBody?, hk]; rfl⟩
  case h_3 body hk => exact ⟨hobject h, body, by rw [classBody?, hk]; rfl⟩
  · cases h

/-- The plan of an enum is that of an enum. -/
theorem plan_eq_enum {p : EnumPlan} (h : g.plan dropped id = .ok (.enum p)) :
    g.kind id = .enumType p.variants ∧ p.typeName = g.name id := by
  -- Classes and interfaces do not have the plan of an enum.
  unfold plan at h
  split at h
  case h_1 variants hk =>
    cases h
    exact ⟨hk, rfl⟩
  · obtain ⟨_, _, heq⟩ := Except.map_eq_ok.1 h
    cases heq
  · obtain ⟨_, _, heq⟩ := Except.map_eq_ok.1 h
    cases heq
  · cases h

/-- A plan has the name of its type. -/
theorem typeName_of_plan {p : CodecPlan} (h : g.plan dropped id = .ok p) :
    p.typeName = g.name id := by
  cases p with
  | object p => exact (plan_eq_object h).1.typeName
  | enum p => exact (plan_eq_enum h).2

/-- The names of plans are those of the types that they are for. -/
theorem typeNames_of_plans {ids : List TypeId} {plans : List CodecPlan}
    (h : List.Forall₂ (fun id p => g.plan dropped id = .ok p) ids plans) :
    plans.map CodecPlan.typeName = ids.map g.name := by
  induction h with
  | nil => rfl
  | cons hp _ ih => rw [List.map_cons, List.map_cons, ih, typeName_of_plan hp]

/-- Whether a type can get a plan: it is an enum, class or interface, and there are codec references
for the types of its fields. -/
structure Plannable (g : TypeGraph) (id : TypeId) : Prop where
  kind : (∃ variants, g.kind id = .enumType variants) ∨ ∃ body, g.classBody? id = some body
  fields : ∀ f ∈ g.serializableFields id, ∃ c, g.codecRef f.type = .ok c

/-- A field has an encoding if there is a codec reference for its type. -/
private theorem exists_fieldEncoding {c : CodecRef} (hc : g.codecRef id = .ok c) :
    ∃ e, g.fieldEncoding id = .ok e := by
  unfold fieldEncoding
  split
  case h_4 => exact ⟨.nested c, by rw [hc]; rfl⟩
  all_goals exact ⟨_, rfl⟩

/-- A type whose fields have codecs has the plan of an object. -/
private theorem Plannable.exists_objectPlan (h : g.Plannable id) (dropped : Option String) :
    ∃ p, g.objectPlan dropped id = .ok p := by
  have hfield : ∀ f ∈ g.serializableFields id,
      ∃ p, g.fieldPlan dropped (g.serializableFields id) f = .ok p := by
    intro f hf
    obtain ⟨c, hc⟩ := h.fields f hf
    obtain ⟨e, he⟩ := exists_fieldEncoding hc
    exact ⟨_, by rw [fieldPlan, he]; rfl⟩
  -- Each field has its plan, so all of them have.
  obtain ⟨fields, hfields⟩ := Except.exists_mapM_eq_ok hfield
  unfold objectPlan
  dsimp only
  rw [hfields]
  exact ⟨_, rfl⟩

/-- A type that can be planned has a plan. -/
theorem Plannable.exists_plan (h : g.Plannable id) (dropped : Option String) :
    ∃ p, g.plan dropped id = .ok p := by
  -- An enum is planned right away.
  rcases h.kind with ⟨variants, hk⟩ | ⟨body, hbody⟩
  · unfold plan
    rw [hk]
    exact ⟨_, rfl⟩
  -- A class or interface is planned by its fields.
  · obtain ⟨p, hp⟩ := h.exists_objectPlan dropped
    unfold plan
    cases hk : g.kind id with
    | classType _ => exact ⟨.object p, by dsimp only; rw [hp]; rfl⟩
    | interfaceType _ => exact ⟨.object p, by dsimp only; rw [hp]; rfl⟩
    | _ =>
      rw [classBody?, hk] at hbody
      cases hbody

/-- What is reachable and supported, with a codec of its own, can be planned. -/
private theorem plannable_of_supported (hs : g.Supported roots) (h : g.Reach roots id)
    (hid : g.WrittenBy id id) : g.Plannable id := by
  -- An enum has no fields.
  rcases hid with ⟨henum, _⟩ | hclass
  · obtain ⟨variants, hk⟩ := classify_eq_enum henum
    refine ⟨Or.inl ⟨variants, hk⟩, fun f hf => ?_⟩
    rw [serializableFields, classBody?, hk] at hf
    cases hf
  -- The types of the fields of a class are reachable, so they have codecs.
  · obtain ⟨body, hbody, _⟩ := classify_eq_userClass hclass
    exact ⟨Or.inr ⟨body, hbody⟩, fun f hf => exists_codecRef hs (.field h hclass hf)⟩

/-- A type that is reachable, supported and has a codec of its own has a plan. -/
theorem exists_plan (dropped : Option String) (hs : g.Supported roots) (h : g.Reach roots id)
    (hid : g.WrittenBy id id) : ∃ p, g.plan dropped id = .ok p :=
  (plannable_of_supported hs h hid).exists_plan dropped

/-! ### Planning in order -/

/-- The plan of a type that waits for it is built, and the others go on waiting. -/
private theorem planRegistered_of_queued (g : TypeGraph) (dropped : Option String) {r : Registry}
    (h : r.Queued id) :
    (g.planRegistered dropped id r).1 = g.plan dropped id ∧
      ∀ x ≠ id, (g.planRegistered dropped id r).2.record? x = r.record? x := by
  obtain ⟨r₁, r₂, hstart, hcomplete, hstarted, hcompleted⟩ := h.exists_complete
  unfold planRegistered
  rw [hstart]
  dsimp only
  -- The plan may fail after the start, which touches only the record of the type.
  cases hplan : g.plan dropped id with
  | error d => exact ⟨rfl, hstarted⟩
  | ok p =>
    dsimp only
    rw [hcomplete]
    exact ⟨rfl, fun x hx => by simp [hcompleted, hx]⟩

/-- Types that wait for their plans are planned one by one. -/
theorem planEach_eq_mapM (g : TypeGraph) (dropped : Option String) {ids : List TypeId}
    {r : Registry} (hnodup : ids.Nodup) (h : ∀ id ∈ ids, r.Queued id) :
    (g.planEach dropped ids r).1 = ids.mapM (g.plan dropped) := by
  induction ids generalizing r with
  | nil => rfl
  | cons id rest ih =>
    rw [List.nodup_cons] at hnodup
    obtain ⟨hplan, hother⟩ := planRegistered_of_queued g dropped (h id List.mem_cons_self)
    unfold planEach
    rw [List.mapM_cons, ← hplan]
    -- A plan that fails ends the whole.
    rcases hstep : g.planRegistered dropped id r with ⟨_ | p, r'⟩
    · rfl
    · -- The rest still waits, because none of it is the type that was planned.
      have hrest : ∀ x ∈ rest, r'.Queued x := by
        intro x hx
        obtain ⟨c, hc, hp⟩ := h x (List.mem_cons_of_mem _ hx)
        refine ⟨c, ?_, hp⟩
        have hne : x ≠ id := fun heq => hnodup.1 (heq ▸ hx)
        have := hother x hne
        rw [hstep] at this
        rw [this, hc]
      have hih := ih hnodup.2 hrest
      dsimp only
      rw [← hih]
      rcases g.planEach dropped rest r' with ⟨_ | ps, r''⟩ <;> rfl

end TypeGraph

end GraphCodec
