import GraphCodec.Proofs.Codec.Objects
import GraphCodec.Proofs.Generation.WellTyped
import GraphCodec.Proofs.Types.Descent

/-!
# Round trips

With the table of a generated unit, a well-typed value of a reachable type is written and its text
is read back as the value with zeros in its unset primitive fields
(`GeneratorConfig.decode_encode_eq_fillZeros`).  The induction follows how the value is typed, since
types may refer to themselves: the parts of a value are read back by the codecs of their types, and
an object by the codec of its own class, to which its declared class hands it on.

All this is so if every field that makes up an object has a member name of its own, which is not
that of the type either (`TypeGraph.DistinctMembers`).
-/

namespace GraphCodec

namespace TypeGraph

open Value CodecTable

variable {g : TypeGraph} {roots : List TypeId} {id : TypeId} {c : GeneratorConfig}

/-- Whether the members of all objects that may stand in a value of a type have names of their
own. -/
structure DistinctMembers (g : TypeGraph) (c : GeneratorConfig) (start : TypeId) : Prop where
  /-- No two fields of a class, inherited or not, have one name. -/
  nodup : ∀ id, g.Reach [start] id → g.classify id = .userClass id →
    (g.wireNames c.droppedStart id).Nodup
  /-- No field has the name of the member for the type of the object. -/
  tag : ∀ id, g.Reach [start] id → g.classify id = .userClass id →
    c.tagMember ∉ g.wireNames c.droppedStart id

/-- Checks that the members of the objects of all classes have names of their own. -/
def checkMembers (g : TypeGraph) (c : GeneratorConfig) : Bool :=
  g.places.all fun id =>
    decide (g.classify id ≠ .userClass id) ||
      decide (g.wireNames c.droppedStart id).Nodup &&
        decide (c.tagMember ∉ g.wireNames c.droppedStart id)

theorem distinctMembers_of_checkMembers (h : g.checkMembers c = true) (start : TypeId) :
    g.DistinctMembers c start := by
  have hall : ∀ id, g.classify id = .userClass id →
      -- Every class of the program is checked at its place.
      (g.wireNames c.droppedStart id).Nodup ∧ c.tagMember ∉ g.wireNames c.droppedStart id := by
    intro id hclass
    have hid := List.all_eq_true.1 h id (show g.WrittenBy id id from Or.inr hclass).mem_places
    rw [Bool.or_eq_true, Bool.and_eq_true, decide_eq_true_eq, decide_eq_true_eq,
      decide_eq_true_eq] at hid
    exact hid.resolve_left fun hne => hne hclass
  exact ⟨fun id _ hclass => (hall id hclass).1, fun id _ hclass => (hall id hclass).2⟩

/-! ### Fields -/

/-- The codec of a field is that of its type. -/
theorem codecRef_of_fieldEncoding {e : FieldEncoding} (h : g.fieldEncoding id = .ok e) :
    g.codecRef id = .ok e.codec := by
  unfold fieldEncoding at h
  rw [codecRef_eq]
  -- A scalar or a string has a fixed codec, and any other type has its own reference.
  split at h
  case h_1 s hc => cases h; rw [hc]; rfl
  case h_2 s hc => cases h; rw [hc]; rfl
  case h_3 hc => cases h; rw [hc]; rfl
  case h_4 =>
    rw [← codecRef_eq]
    obtain ⟨ref, href, rfl⟩ := Except.map_eq_ok.1 h
    exact href

/-- The codec of a scalar type is that of its kind, boxed or not. -/
theorem codecRef_of_scalar {s : Scalar}
    (h : g.classify id = .primitive s ∨ g.classify id = .boxed s) :
    g.codecRef id = .ok (.scalar s) := by
  rw [codecRef_eq]
  cases h with
  | inl h => rw [h]
  | inr h => rw [h]

/-- A field that is unset is read as its zero, or as null. -/
theorem PlannedField.fieldValue_null {f : Field} {p : FieldPlan} (h : g.PlannedField f p) :
    fieldValue p .null = (g.zero? f).getD .null := by
  have hencoding := h.encoding
  unfold fieldEncoding at hencoding
  unfold fieldValue zero?
  -- Only a primitive field has a zero.
  split at hencoding
  case h_1 s hc => rw [hc, ← Except.ok.inj hencoding]; rfl
  case h_2 s hc => rw [hc, ← Except.ok.inj hencoding]; rfl
  case h_3 hc => rw [hc, ← Except.ok.inj hencoding]; rfl
  case h_4 hprimitive _ _ =>
    obtain ⟨ref, -, hnested⟩ := Except.map_eq_ok.1 hencoding
    rw [← hnested]
    dsimp only [FieldEncoding.primitive?]
    split
    case h_1 s hc => exact absurd hc (hprimitive s)
    case h_2 => rfl

/-- What a field of an object is read back as. -/
def fieldBack (g : TypeGraph) (fields : List (String × Value)) (f : Field) : Value :=
  match getField? fields f.name with
  | some v => g.fillZeros v
  | none => (g.zero? f).getD .null

/-- Reading back the planned fields is reading back the fields. -/
private theorem map_fieldBack {declared : List Field} {plans : List FieldPlan}
    (h : List.Forall₂ g.PlannedField declared plans) (fields : List (String × Value)) :
    (plans.map fun p => (p.name, CodecTable.fieldBack g.fillZeros fields p)) =
      declared.map fun f => (f.name, g.fieldBack fields f) := by
  induction h with
  | nil => rfl
  | @cons f p declared plans hp _ ih =>
    -- A value that is set is read back, and an unset one is read as its zero.
    have hback : CodecTable.fieldBack g.fillZeros fields p = g.fieldBack fields f := by
      unfold CodecTable.fieldBack fieldBack
      rw [hp.name]
      cases getField? fields f.name with
      | some v => rfl
      | none => exact hp.fieldValue_null
    rw [List.map_cons, List.map_cons, ih, hback, hp.name]

/-- What stands under a name is what is made of the first field of that name. -/
private theorem lookup_map_name {α : Type} (x : Field → α) (declared : List Field) (name : String) :
    (declared.map fun f => (f.name, x f)).lookup name =
      (declared.find? (·.name == name)).map x := by
  induction declared with
  | nil => rfl
  | cons f rest ih =>
    rw [List.map_cons, List.lookup_cons, List.find?_cons]
    -- It is the first field, or one behind it.
    by_cases h : f.name = name
    · rw [h, beq_self_eq_true]
      rfl
    · rw [beq_eq_false_iff_ne.2 h, beq_eq_false_iff_ne.2 (Ne.symm h)]
      exact ih

/-- The fields that are read back are those of the object, with zeros where primitive fields were
unset.  Of several fields of one name both are read from what is found under it, and the one that
hides the others says whether it is zero. -/
private theorem assign_fieldBack {runtime : TypeId} {plans : List FieldPlan}
    {fields : List (String × Value)}
    (hplans : List.Forall₂ g.PlannedField (g.allFields runtime) plans) (hfields : Ascending fields)
    (hnames : ∀ e ∈ fields, ∃ f ∈ g.allFields runtime, f.name = e.1)
    (hnull : ∀ e ∈ fields, e.2.isNull = false) :
    assign [] (plans.map fun p => (p.name, CodecTable.fieldBack g.fillZeros fields p)) =
      g.setZeros runtime (g.fillFields fields) := by
  -- Both sides are in order, so it is enough to look under each name.
  refine (ascending_assign List.Pairwise.nil _).ext
    (ascending_setZeros (ascending_fillFields hfields)) fun name => ?_
  rw [getField?_assign, map_fieldBack hplans, ← List.map_reverse, lookup_map_name, ← field?,
    getField?_setZeros, getField?_fillFields, zeroNamed?]
  cases hf : g.field? runtime name with
  | none =>
    -- Nothing is set under a name that no field has.
    have hnone : getField? fields name = none := by
      cases hget : getField? fields name with
      | none => rfl
      | some v =>
        obtain ⟨f, hmem, hname⟩ := hnames (name, v) (mem_of_getField? hget)
        have hother := List.find?_eq_none.1 hf f (List.mem_reverse.2 hmem)
        exact absurd (beq_iff_eq.2 hname) hother
    rw [hnone]
    rfl
  -- The last field of the name decides.
  | some f =>
    have hfound : (g.allFields runtime).reverse.find? (fun f => f.name == name) = some f := hf
    have hcond := List.find?_some hfound
    have hname : f.name = name := beq_iff_eq.1 hcond
    show (g.fieldBack fields f).present? = _
    rw [fieldBack, hname]
    -- The value that is set is read back.
    cases hget : getField? fields name with
    | some v =>
      have hv : v.isNull = false := hnull (name, v) (mem_of_getField? hget)
      show (g.fillZeros v).present? = some (g.fillZeros v)
      rw [present?, isNull_fillZeros, hv, if_neg Bool.false_ne_true]
    -- Nothing is set, so the zero of the field is filled in.
    | none =>
      show ((g.zero? f).getD .null).present? = g.zero? f
      unfold zero?
      split
      case h_1 s _ => rw [Option.getD_some, present?, Scalar.isNull_zero, if_neg Bool.false_ne_true]
      case h_2 => rfl

/-! ### Classes -/

/-- A class of the program is found under its name. -/
theorem Consistent.classNamed?_eq (hg : g.Consistent) (h : g.classify id = .userClass id) :
    g.classNamed? (g.name id) = some id := by
  -- The class itself satisfies what is searched for.
  have hsome : (g.classNamed? (g.name id)).isSome := by
    rw [classNamed?, List.find?_isSome]
    exact ⟨id, (show g.WrittenBy id id from Or.inr h).mem_places, by simp [h]⟩
  obtain ⟨found, hfound⟩ := Option.isSome_iff_exists.1 hsome
  have hcond := List.find?_some hfound
  rw [Bool.and_eq_true, decide_eq_true_eq, beq_iff_eq] at hcond
  -- What was found has the same name, and names tell classes apart.
  rw [hfound, hg.eq_of_name_eq (Or.inr hcond.1) (Or.inr h) hcond.2]

/-- A type that is reachable from a reachable one is reachable. -/
theorem Reach.trans {start : TypeId} (h : g.Reach [start] id) (hstart : g.Reach roots start) :
    g.Reach roots id := by
  -- By induction on how the type is reached from the one in between.
  induction h with
  | root hmem => exact List.mem_singleton.1 hmem ▸ hstart
  | component _ hkind ih => exact .component ih hkind
  | element _ hid ih => exact .element ih hid
  | key _ hid ih => exact .key ih hid
  | value _ hid ih => exact .value ih hid
  | argument _ hid hkind hmem ih => exact .argument ih hid hkind hmem
  | rawClass _ hid ih => exact .rawClass ih hid
  | superclass _ hid hin hs ih => exact .superclass ih hid hin hs
  | subtype _ hid hmem ih => exact .subtype ih hid hmem
  | field _ hid hmem ih => exact .field ih hid hmem

/-- The objects that a reachable class can hold are of reachable classes that have instances. -/
theorem Holds.reach (hg : g.LoadedGraph) {declared runtime : TypeId} (h : g.Holds declared runtime)
    (hreach : g.Reach roots declared) (hclass : g.classify declared = .userClass declared) :
    g.Reach roots runtime ∧ g.classify runtime = .userClass runtime ∧
      g.isAbstract runtime = false := by
  -- The class itself, or a subtype of it.
  cases h with
  | inl hself =>
    obtain ⟨heq, hconcrete⟩ := hself
    exact heq ▸ ⟨hreach, hclass, hconcrete⟩
  | inr hsub =>
    obtain ⟨hmem, hconcrete⟩ := List.mem_filter.1 hsub
    rw [Bool.not_eq_true'] at hconcrete
    exact ⟨.subtype hreach hclass hmem, hg.classify_subtype hmem, hconcrete⟩

end TypeGraph

/-! ### Reading back values -/

namespace GeneratorConfig

open TypeGraph CodecTable Value

variable {g : TypeGraph} {roots : List TypeId} {c : GeneratorConfig} {u : GeneratedUnit}

/-- A table has the tag of its unit. -/
theorem tagMember_link (u : GeneratedUnit) : u.link.tagMember = u.tagMember := by
  -- Linking plans does not change the tag.
  have hfold : ∀ (plans : List CodecPlan) (t : CodecTable),
      (t.link plans).tagMember = t.tagMember := by
    intro plans
    induction plans with
    | nil => intro t; rfl
    | cons p rest ih =>
      intro t
      rw [CodecTable.link, List.foldl_cons, ← CodecTable.link, ih]
      cases p <;> rfl
  exact hfold u.plans _

section ReadBack

variable (hg : g.LoadedGraph) (hu : c.generate g roots = .ok u)

include hg hu

/-- A reachable enum is found in the table of a unit. -/
theorem exists_enum?_link {id : TypeId} {variants : List String} (h : g.Reach roots id)
    (hkind : g.kind id = .enumType variants) :
    u.link.object? (g.name id) = none ∧ u.link.enum? (g.name id) = some ⟨g.name id, variants⟩ := by
  have hcons := hg.built.consistent
  have hnodup := nodup_typeName hcons hu
  have hclass := classify_of_enumType hkind
  have hplan : g.plan c.droppedStart id = .ok (.enum ⟨g.name id, variants⟩) := by
    unfold plan
    rw [hkind]
  -- The plan is in the unit, so it is found by its name.
  have hmem := (mem_plans_iff hcons hu).2 ⟨id, h, Or.inl ⟨hclass, rfl⟩, hplan⟩
  exact ⟨object?_of_enum hnodup hmem, (enum?_ofPlans hnodup).2 ⟨hmem, rfl⟩⟩

/-- A class hands its objects on to the plan of their own class, which is not abstract. -/
private theorem exists_handsOn {declared runtime : TypeId} (hreach : g.Reach roots declared)
    (hclass : g.classify declared = .userClass declared) (h : g.Holds declared runtime) :
    ∃ p q, u.link.object? (g.name declared) = some p ∧ u.link.HandsOn p q ∧
      q.isAbstract = false ∧ g.PlannedObject c.droppedStart runtime q := by
  have hcons := hg.built.consistent
  obtain ⟨p, hp, hplanned⟩ := exists_object_mem_plans hcons hu hreach hclass
  obtain ⟨hreach', hclass', hconcrete⟩ := h.reach hg hreach hclass
  obtain ⟨q, hq, hplanned'⟩ := exists_object_mem_plans hcons hu hreach' hclass'
  have hobject : u.link.object? (g.name declared) = some p := by
    rw [← hplanned.typeName]
    exact object?_link hcons hu hp
  refine ⟨p, q, hobject, ?_, by rw [hplanned'.isAbstract, hconcrete], hplanned'⟩
  by_cases heq : runtime = declared
  · -- A unit has one plan under each name.
    have hname : q.typeName = p.typeName := by rw [hplanned'.typeName, hplanned.typeName, heq]
    have hsame := eq_of_typeName_eq hcons hu hq hp hname
    exact Or.inl (CodecPlan.object.inj hsame)
  -- The class of the object is a subtype, and its plan has another name.
  · have hsub : runtime ∈ g.concreteSubtypes declared :=
      h.resolve_left fun hself => heq hself.1
    have hne : q.typeName ≠ p.typeName := by
      rw [hplanned'.typeName, hplanned.typeName]
      exact fun hname => heq (hcons.eq_of_name_eq (Or.inr hclass') (Or.inr hclass) hname)
    -- The list of subtypes is in order, so halving it finds the name.
    have hknows : p.knowsSubtype q.typeName := by
      rw [ObjectPlan.knowsSubtype, hplanned.subtypes, hplanned'.typeName]
      exact binarySearch_of_mem (pairwise_concreteSubtypes declared) (List.mem_map_of_mem hsub)
    exact Or.inr ⟨hne, hknows, object?_link hcons hu hq⟩

/-- Whether a value is read back through the codec of a type, with zeros in its unset primitive
fields. -/
def FilledBack (g : TypeGraph) (t : CodecTable) (id : TypeId) (v : Value) : Prop :=
  ∀ {ref : CodecRef}, g.codecRef id = .ok ref → t.ReadsBack ref v (g.fillZeros v)

/-- A position that may be null is read back if its value is. -/
theorem readsBack_nullable {id : TypeId} {ref : CodecRef} {v : Value} (h : g.Reach roots id)
    (href : g.codecRef id = .ok ref)
    (hv : v ≠ .null → u.link.ReadsBack ref v (g.fillZeros v)) :
    u.link.ReadsBack ref v (g.fillZeros v) := by
  by_cases hnull : v = .null
  · rw [hnull, fillZeros_null]
    exact readsBack_null (knows_of_codecRef hg.built.consistent hu h href)
  · exact hv hnull

omit hu in
/-- A map is read back if its keys and values are, in whichever of its three forms. -/
private theorem filledBack_map {id key value : TypeId} {keys : MapKeys}
    {entries : List (Value × Value)} {t : CodecTable} (hid : g.classify id = .map key value keys)
    (hkeys : ∀ e ∈ entries, e.1 ≠ .null → g.WellTyped key e.1)
    (hnull : keys ≠ .paired → ∀ e ∈ entries, e.1 ≠ .null)
    (hdiffer : entries.Pairwise fun e e' => (g.fillZeros e.1).same (g.fillZeros e'.1) = false)
    (hkey : ∀ e ∈ entries, FilledBack g t key e.1)
    (hvalue : ∀ e ∈ entries, FilledBack g t value e.2) : FilledBack g t id (.map entries) := by
  intro ref href
  -- Reading keys back does not make them equal.
  have hdiffer' : (entries.map (backEntry g.fillZeros)).Pairwise
      fun e e' => e.1.same e'.1 = false := List.pairwise_map.2 hdiffer
  have hkeysEq := classify_eq_map hid
  rw [codecRef_eq, hid] at href
  rw [fillZeros, fillEntries_eq_map]
  cases keys with
  -- Text keys are the names of members as they are, and are never null.
  | text =>
    obtain ⟨v, hv, rfl⟩ := Except.map_eq_ok.1 href
    refine readsBack_textKeyMap (fun e he => ?_) (fun e he => hvalue e he hv) hdiffer'
    have htyped := hkeys e he (hnull MapKeys.noConfusion e he)
    obtain ⟨s, hs⟩ := htyped.exists_string (hg.classify_of_mapKeys_eq_text hkeysEq.symm)
    rw [hs, fillZeros_string]
    exact keyReadsBack_string s
  -- Scalar keys are written into names and parsed again.
  | parsed s =>
    obtain ⟨k, hk, href⟩ := Except.bind_eq_ok.1 href
    obtain ⟨v, hv, href⟩ := Except.bind_eq_ok.1 href
    cases href
    have hscalar := classify_of_mapKeys_eq_parsed hkeysEq.symm
    rw [codecRef_of_scalar hscalar] at hk
    rw [← Except.ok.inj hk]
    refine readsBack_parsedKeyMap (fun e he => ?_) (fun e he => hvalue e he hv) hdiffer'
    have htyped := hkeys e he (hnull MapKeys.noConfusion e he)
    have hadmits := htyped.admits hscalar
    rw [fillZeros_of_admits hadmits]
    exact keyReadsBack_scalar hadmits
  -- All other keys stand in an array of their own.
  | paired =>
    obtain ⟨k, hk, href⟩ := Except.bind_eq_ok.1 href
    obtain ⟨v, hv, href⟩ := Except.bind_eq_ok.1 href
    cases href
    exact readsBack_pairedMap (fun e he => hkey e he hk) (fun e he => hvalue e he hv) hdiffer'

variable {start : TypeId} (hstart : g.Reach roots start) (hd : g.DistinctMembers c start)

include hstart hd

/-- An object is read back if the values of its fields are. -/
private theorem filledBack_object {id declared runtime : TypeId} {fields : List (String × Value)}
    (h : g.Reach [start] id) (hid : g.classify id = .userClass declared)
    (hholds : g.Holds declared runtime) (hasc : Ascending fields)
    (hnames : ∀ e ∈ fields, ∃ f ∈ g.allFields runtime, f.name = e.1)
    (hfields : ∀ e ∈ fields, ∀ f ∈ g.allFields runtime, f.name = e.1 → g.WellTyped f.type e.2)
    (hparts : ∀ e ∈ fields, ∀ f ∈ g.allFields runtime, f.name = e.1 → g.Reach [start] f.type →
      FilledBack g u.link f.type e.2) :
    FilledBack g u.link id (.object (g.name runtime) fields) := by
  intro ref href
  have hcons := hg.built.consistent
  have hreach : g.Reach [start] declared := .rawClass h hid
  have hclass := classify_userClass_self hid
  obtain ⟨hreach', hclass', -⟩ := hholds.reach hg hreach hclass
  rw [codecRef_eq, hid] at href
  cases href
  -- The declared class hands the object on to the plan of its own class.
  obtain ⟨p, q, hp, hhands, hconcrete, hplanned⟩ :=
    exists_handsOn hg hu (hreach.trans hstart) hclass hholds
  obtain ⟨plans, hplans, hall⟩ :=
    exists_chainFields hg hu (hreach'.trans hstart) hclass' hplanned
  have htag : u.link.tagMember ∉ plans.map (·.wireName) := by
    rw [tagMember_link, (generate_eq_ok hcons hu).2.1, hall.wireNames]
    exact hd.tag runtime hreach' hclass'
  have hnodup : (plans.map (·.wireName)).Nodup := by
    rw [hall.wireNames]
    exact hd.nodup runtime hreach' hclass'
  -- What is set for a planned field is a value of the type of the field.
  have hback : ∀ f ∈ plans, ∀ v, getField? fields f.name = some v →
      v.isNull = false ∧ (g.fillZeros v).isNull = false ∧
        u.link.ReadsBack f.encoding.codec v (g.fillZeros v) := by
    intro p hp v hv
    obtain ⟨f, hf, hfield⟩ := hall.fields.exists_of_mem_right hp
    have hmem := mem_of_getField? hv
    have hv' : v.isNull = false := (hfields _ hmem f hf hfield.name.symm).isNull
    have href := codecRef_of_fieldEncoding hfield.encoding
    have hreachField := reach_field hg hreach' hclass' hf
    exact ⟨hv', (isNull_fillZeros v).trans hv',
      hparts _ hmem f hf hfield.name.symm hreachField href⟩
  -- Nothing is set to null.
  have hnull : ∀ e ∈ fields, e.2.isNull = false := by
    intro e he
    obtain ⟨f, hf, hname⟩ := hnames e he
    exact (hfields e he f hf hname).isNull
  -- All of this together reads the object back, with zeros as they are filled in.
  have hread := readsBack_object hp hhands hconcrete hplans hnodup htag hback
  rw [hplanned.typeName, assign_fieldBack hall.fields hasc hnames hnull] at hread
  rw [fillZeros, hcons.classNamed?_eq hclass']
  exact hread

/-- A well-typed value is read back with zeros in its unset primitive fields. -/
theorem readsBack_of_wellTyped {id : TypeId} {v : Value} (hv : g.WellTyped id v) {ref : CodecRef}
    (h : g.Reach [start] id) (href : g.codecRef id = .ok ref) :
    u.link.ReadsBack ref v (g.fillZeros v) := by
  -- By induction on the typing, since a type may refer to itself.
  induction hv generalizing ref with
  -- Scalars, strings and enums have nothing to fill in.
  | @scalar id s v hid hadmits =>
    rw [codecRef_of_scalar hid] at href
    rw [← Except.ok.inj href, fillZeros_of_admits hadmits]
    exact readsBack_scalar hadmits
  | string s hid =>
    rw [codecRef_eq, hid] at href
    rw [← Except.ok.inj href, fillZeros_string]
    exact readsBack_string s
  | @enum id variants variant hkind hvariant =>
    obtain ⟨hobject, henum⟩ := exists_enum?_link hg hu (h.trans hstart) hkind
    rw [codecRef_eq, classify_of_enumType hkind] at href
    rw [← Except.ok.inj href, fillZeros_enum]
    exact readsBack_enum hobject henum hvariant
  -- The items of a sequence are values of its element type.
  | @sequence id element shape items hid hitems hset ih =>
    rw [codecRef_eq, hid] at href
    obtain ⟨e, he, rfl⟩ := Except.map_eq_ok.1 href
    rw [fillZeros, fillItems_eq_map]
    refine readsBack_sequence (fun v hv => ?_) fun hshape => List.pairwise_map.2 (hset hshape)
    have hreach : g.Reach [start] element := .element h hid
    exact readsBack_nullable hg hu (hreach.trans hstart) he fun hnull => ih v hv hnull hreach he
  -- Keys and values are positions that may be null.
  | @map id key value keys entries hid hkeys hvalues hnull hdiffer ihk ihv =>
    have hreachKey : g.Reach [start] key := .key h hid
    have hreachValue : g.Reach [start] value := .value h hid
    refine filledBack_map hg hid hkeys hnull hdiffer (fun e he k hk => ?_) (fun e he v hv => ?_)
      href
    · exact readsBack_nullable hg hu (hreachKey.trans hstart) hk fun hne =>
        ihk e he hne hreachKey hk
    · exact readsBack_nullable hg hu (hreachValue.trans hstart) hv fun hne =>
        ihv e he hne hreachValue hv
  -- Each field of an object is read back, by induction.
  | @object id declared runtime fields hid hholds hasc hnames hfields ih =>
    exact filledBack_object hg hu hstart hd h hid hholds hasc hnames hfields
      (fun e he f hf hname hreach _ href => ih e he f hf hname hreach href) href

end ReadBack

/-- What the table of a generated unit writes for null or a well-typed value of a reachable type is
read back as the value with zeros in its unset primitive fields.  The value may be of any size and
its type refer to itself.  Values with floating-point numbers, dates or fields of any type are not
among the well-typed ones. -/
theorem decode_encode_eq_fillZeros {s : Schema} {loaded : LoadedSchema} (hs : s.load = .ok loaded)
    (hu : c.generateSchema loaded = .ok u) {id : TypeId} {ref : CodecRef} {v : Value}
    (hreach : loaded.graph.Reach loaded.roots id) (href : loaded.graph.codecRef id = .ok ref)
    (hd : loaded.graph.DistinctMembers c id) (hv : v = .null ∨ loaded.graph.WellTyped id v) :
    ∃ text, u.link.encode ref v = .ok text ∧
      u.link.decode ref text = .ok (loaded.graph.fillZeros v) := by
  have hg := loadedGraph_of_load hs
  have hself : loaded.graph.Reach [id] id := .root List.mem_cons_self
  -- A value that is not null is well-typed.
  exact ReadsBack.decode <| readsBack_nullable hg hu hreach href fun hnull =>
    readsBack_of_wellTyped hg hu hreach hd (hv.resolve_left hnull) hself href

/-- The owner has the values that the schema asks for. -/
private theorem wellTyped_owner : Example.petGraph.WellTyped ⟨35⟩ Example.owner := by
  have hcolor : ∀ variant ∈ ["RED", "BLACK"],
      Example.petGraph.WellTyped ⟨32⟩ (.enum "Color" variant) := fun variant h =>
    .enum (show Example.petGraph.kind ⟨32⟩ = .enumType ["RED", "BLACK"] by decide +kernel) h
  have hred := hcolor "RED" (by decide)
  have hblack := hcolor "BLACK" (by decide)
  -- The dog is held by the list of pets, as a subtype of its element type.
  have hdog : Example.petGraph.WellTyped ⟨33⟩ (.object "Dog" [("color", .enum "Color" "RED")]) := by
    have hclass : Example.petGraph.classify ⟨33⟩ = .userClass ⟨33⟩ := by decide +kernel
    have hsubtypes : Example.petGraph.concreteSubtypes ⟨33⟩ = [⟨34⟩] := by cbv
    have hholds : Example.petGraph.Holds ⟨33⟩ ⟨34⟩ := Or.inr (hsubtypes ▸ List.mem_cons_self)
    have hfields : Example.petGraph.allFields ⟨34⟩ = [⟨"name", .string, false, []⟩,
        ⟨"age", Primitive.id (.scalar .int), false, []⟩, ⟨"color", ⟨32⟩, false, []⟩] := by cbv
    refine .object hclass hholds (by decide) ?_ ?_
    · simp [hfields]
    · simpa [hfields] using hred
  have hpets : Example.petGraph.WellTyped ⟨36⟩
      (.sequence .list [.object "Dog" [("color", .enum "Color" "RED")], .null]) := by
    have hclass : Example.petGraph.classify ⟨36⟩ = .sequence .list ⟨33⟩ := by decide +kernel
    refine .sequence hclass ?_ fun h => by cases h
    simpa using hdog
  -- The marks are a map from colors to boxed integers.
  have hmarks : Example.petGraph.WellTyped ⟨37⟩
      (.map [(.enum "Color" "RED", .int 7), (.enum "Color" "BLACK", .null)]) := by
    have hclass : Example.petGraph.classify ⟨37⟩ =
        .map ⟨32⟩ (Scalar.boxedId .int) .paired := by decide +kernel
    have hint : Example.petGraph.classify (Scalar.boxedId .int) = .boxed .int := by decide +kernel
    have hseven : Example.petGraph.WellTyped (Scalar.boxedId .int) (.int 7) :=
      .scalar (Or.inr hint) trivial
    refine .map hclass ?_ ?_ (fun h => absurd rfl h) (List.pairwise_pair.2 (by decide +kernel))
    · simpa using ⟨hred, hblack⟩
    · simpa using hseven
  have hclass : Example.petGraph.classify ⟨35⟩ = .userClass ⟨35⟩ := by decide +kernel
  have hfields : Example.petGraph.allFields ⟨35⟩ =
      [⟨"marks", ⟨37⟩, false, []⟩, ⟨"pets", ⟨36⟩, false, []⟩] := by cbv
  -- The fields of the owner are the marks and the pets.
  refine .object hclass (Or.inl ⟨rfl, by decide +kernel⟩) (by decide) ?_ ?_
  · simp [hfields]
  · simpa [hfields] using ⟨hmarks, hpets⟩

/-- The owner is read back with an age of zero for the dog. -/
theorem decode_encode_owner :
    Example.petSchema.load = .ok ⟨Example.petGraph, [⟨35⟩]⟩ ∧
    Example.petGraph.Reach [⟨35⟩] ⟨35⟩ ∧
    Example.petGraph.codecRef ⟨35⟩ = .ok (.generated "Owner") ∧
    Example.petGraph.DistinctMembers standard ⟨35⟩ ∧
    Example.petGraph.WellTyped ⟨35⟩ Example.owner ∧
    ∃ u text, standard.generateSchema ⟨Example.petGraph, [⟨35⟩]⟩ = .ok u ∧
      u.link.encode (.generated "Owner") Example.owner = .ok text ∧
      u.link.decode (.generated "Owner") text = .ok (.object "Owner" [
        ("marks", .map [(.enum "Color" "RED", .int 7), (.enum "Color" "BLACK", .null)]),
        ("pets", .sequence .list [
          .object "Dog" [("age", .int 0), ("color", .enum "Color" "RED")], .null])]) := by
  have hload := Schema.load_petSchema
  have hcons := (Schema.built_of_load hload).consistent
  obtain ⟨u, hu⟩ := exists_generate hcons standard supported_petGraph
  have hreach : Example.petGraph.Reach [⟨35⟩] ⟨35⟩ := .root List.mem_cons_self
  have href : Example.petGraph.codecRef ⟨35⟩ = .ok (.generated "Owner") := by
    rw [codecRef_eq]
    decide +kernel
  have hd : Example.petGraph.DistinctMembers standard ⟨35⟩ :=
    distinctMembers_of_checkMembers (by cbv) _
  -- The dog gets an age of zero.
  have hfill : Example.petGraph.fillZeros Example.owner = .object "Owner" [
      ("marks", .map [(.enum "Color" "RED", .int 7), (.enum "Color" "BLACK", .null)]),
      ("pets", .sequence .list [
        .object "Dog" [("age", .int 0), ("color", .enum "Color" "RED")], .null])] := by cbv
  obtain ⟨text, htext, hback⟩ :=
    decode_encode_eq_fillZeros hload hu hreach href hd (Or.inr wellTyped_owner)
  rw [hfill] at hback
  exact ⟨hload, hreach, href, hd, wellTyped_owner, u, text, hu, htext, hback⟩

end GeneratorConfig

end GraphCodec
