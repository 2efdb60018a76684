import GraphCodec.Example.Overlap
import GraphCodec.Proofs.Generation.RoundTrip

/-!
# The names of members

All fields of an object, inherited ones included, are members of one JSON object, and the type of
the object can be another member of it.  A field is written under its own name or under its name
without the dropped prefix, and that is chosen class by class.

So the members of one class have names of their own, but along a lineage the shortened name of a
field can be the name of another (`GeneratorConfig.nodup_wireNames_iff`).  The type always comes
first (`GeneratorConfig.tag_apart_from_fields`), but a field whose member is called like the tag is
read from it (`GeneratorConfig.field_read_from_tag`).
-/

namespace GraphCodec

/-! ### Shortened names -/

/-- Upper case letters are told apart by their lower case. -/
private theorem toLower_inj {c d : Char} (hc : c.isUpper) (hd : d.isUpper)
    (h : c.toLower = d.toLower) :
    c = d := by
  have hc := of_decide_eq_true hc
  have hd := of_decide_eq_true hd
  rw [Char.toLower, Char.toLower, dif_pos hc, dif_pos hd] at h
  exact Char.ext (UInt32.add_left_inj _ |>.1 (congrArg Char.val h))

/-- What a name looks like that can do without a prefix. -/
private theorem strippedName?_eq_some {dropped field short : String}
    (h : strippedName? dropped field = some short) :
    ∃ c rest, field.toList = dropped.toList ++ c :: rest ∧ c.isUpper ∧
      short.toList = c.toLower :: rest := by
  unfold strippedName? at h
  split at h
  -- The name starts with the prefix and a character, which has to be an upper case letter.
  case h_1 c rest hprefix =>
    split at h
    case isTrue hupper =>
      cases h
      exact ⟨c, rest, (List.isPrefixOf?_eq_some_iff_append_eq.1 hprefix).symm, hupper,
        String.toList_ofList⟩
    case isFalse => cases h
  case h_2 => cases h

/-- Different names stay different without a prefix. -/
private theorem strippedName?_inj {dropped a b short : String}
    (ha : strippedName? dropped a = some short)
    (hb : strippedName? dropped b = some short) : a = b := by
  obtain ⟨c, rest, ha, hc, hshort⟩ := strippedName?_eq_some ha
  obtain ⟨d, rest', hb, hd, hshort'⟩ := strippedName?_eq_some hb
  obtain ⟨hlower, hrest⟩ := List.cons.inj (hshort.symm.trans hshort')
  rw [toLower_inj hc hd hlower, hrest, ← hb] at ha
  exact String.toList_inj.1 ha

/-- The name of a field without the dropped prefix, if there is such a name. -/
def shortName? (dropped : Option String) (field : String) : Option String :=
  dropped.filter (!·.isEmpty) >>= (strippedName? · field)

/-- A short name belongs to one name only. -/
private theorem shortName?_inj {dropped : Option String} {a b short : String}
    (ha : shortName? dropped a = some short) (hb : shortName? dropped b = some short) : a = b := by
  obtain ⟨p, hp, ha⟩ := Option.bind_eq_some_iff.1 ha
  obtain ⟨q, hq, hb⟩ := Option.bind_eq_some_iff.1 hb
  cases hp.symm.trans hq
  exact strippedName?_inj ha hb

section WireName

variable {dropped : Option String} {declared declared' : List Field} {field field' : String}

/-- A field is written under its own name, or under its shortened one if no field beside it has that
name. -/
theorem wireName_cases (dropped : Option String) (declared : List Field) (field : String) :
    wireName dropped declared field = field ∨
      shortName? dropped field = some (wireName dropped declared field) ∧
        ∀ f ∈ declared, f.name ≠ wireName dropped declared field := by
  unfold wireName
  split
  -- There is a short name, and it is free or taken by a field of the class.
  case h_1 short hshort =>
    split
    case isTrue => exact Or.inl rfl
    case isFalse hnone =>
      refine Or.inr ⟨hshort, fun f hf heq => hnone ?_⟩
      exact List.any_eq_true.2 ⟨f, hf, decide_eq_true heq⟩
  -- Without a short name the field keeps its own.
  case h_2 => exact Or.inl rfl

/-- Fields of different names only meet where one keeps its name and the other is shortened to
it. -/
theorem wireName_eq (h : wireName dropped declared field = wireName dropped declared' field') :
    field = field' ∨
      wireName dropped declared field ≠ field ∧ wireName dropped declared' field' = field' ∨
        wireName dropped declared' field' ≠ field' ∧ wireName dropped declared field = field := by
  -- Each of the two keeps its name or is shortened.
  by_cases hkept : wireName dropped declared field = field
  · by_cases hkept' : wireName dropped declared' field' = field'
    · exact Or.inl (hkept.symm.trans (h.trans hkept'))
    · exact Or.inr (Or.inr ⟨hkept', hkept⟩)
  · by_cases hkept' : wireName dropped declared' field' = field'
    · exact Or.inr (Or.inl ⟨hkept, hkept'⟩)
    -- Both are shortened to one name, so they have been the same.
    · have hshort := ((wireName_cases dropped declared field).resolve_left hkept).1
      have hshort' := ((wireName_cases dropped declared' field').resolve_left hkept').1
      exact Or.inl (shortName?_inj hshort (h ▸ hshort'))

/-- The fields that one class declares have members of different names. -/
private theorem nodup_wireName (h : (declared.map (·.name)).Nodup) :
    (declared.map fun f => wireName dropped declared f.name).Nodup := by
  -- A name that is shortened to is not that of a field beside it.
  have hname : ∀ f ∈ declared, ∀ f' ∈ declared,
      wireName dropped declared f.name = wireName dropped declared f'.name →
        wireName dropped declared f.name ≠ f.name →
          wireName dropped declared f'.name ≠ f'.name := by
    intro f _ f' hf' heq hne hkept
    have hother := ((wireName_cases dropped declared f.name).resolve_left hne).2
    exact hother f' hf' (hkept.symm.trans heq.symm)
  refine List.Nodup.map_on (fun f hf f' hf' heq => ?_) (List.Nodup.of_map _ h)
  -- By the cases of equal members: the same field, or one of them is shortened to the other.
  rcases wireName_eq heq with hsame | ⟨hne, hkept⟩ | ⟨hne, hkept⟩
  · exact List.inj_on_of_nodup_map h hf hf' hsame
  · exact absurd hkept (hname f hf f' hf' heq hne)
  · exact absurd hkept (hname f' hf' f hf heq.symm hne)

end WireName

namespace TypeGraph

variable {g : TypeGraph} {dropped : Option String} {id : TypeId}

/-- The plans of all fields have the names of the fields. -/
theorem PlannedFields.map_name {plans : List FieldPlan} (h : g.PlannedFields dropped id plans) :
    plans.map (·.name) = (g.allFields id).map (·.name) :=
  map_name_of_planned h.fields

/-- The plan of a field of an object writes it as the class that declares it has it. -/
theorem PlannedFields.exists_wireName {plans : List FieldPlan}
    (h : g.PlannedFields dropped id plans) {p : FieldPlan} (hp : p ∈ plans) :
    ∃ a ∈ g.lineage id, ∃ f ∈ g.serializableFields a, p.name = f.name ∧
      p.wireName = wireName dropped (g.serializableFields a) f.name := by
  -- Names and member names come from the same fields, one by one.
  have hnames : plans.map (·.name) = (g.lineage id).flatMap fun a =>
      (g.serializableFields a).map (·.name) := by
    rw [h.map_name, allFields, List.map_flatMap]
  have hpairs : plans.map (fun p => (p.name, p.wireName)) = (g.lineage id).flatMap fun a =>
      (g.serializableFields a).map fun f =>
        (f.name, wireName dropped (g.serializableFields a) f.name) := by
    refine (List.zip_unzip _).symm.trans (Eq.trans ?_ (List.zip_unzip _))
    simp only [List.unzip_fst, List.unzip_snd, List.map_map, List.map_flatMap, Function.comp_def,
      hnames, h.wireNames, TypeGraph.wireNames]
  have hmem : (p.name, p.wireName) ∈ plans.map fun p => (p.name, p.wireName) :=
    List.mem_map_of_mem hp
  rw [hpairs] at hmem
  -- The field is declared by a class of the lineage.
  obtain ⟨a, ha, hmem⟩ := List.mem_flatMap.1 hmem
  obtain ⟨f, hf, heq⟩ := List.mem_map.1 hmem
  obtain ⟨hname, hwire⟩ := Prod.mk.inj heq
  exact ⟨a, ha, f, hf, hname.symm, hwire.symm⟩

end TypeGraph

/-! ### Members of a lineage -/

namespace GeneratorConfig

open TypeGraph CodecTable Value

variable {g : TypeGraph} {roots : List TypeId} {c : GeneratorConfig} {u : GeneratedUnit}

/-- The plan of a class in a unit is that of a reachable class, and all its fields are found. -/
theorem exists_plannedFields (hg : g.LoadedGraph) (hu : c.generate g roots = .ok u) {p : ObjectPlan}
    (hp : .object p ∈ u.plans) :
    ∃ id, g.PlannedObject c.droppedStart id p ∧ ∃ plans, u.link.chainFields p = .ok plans ∧
      g.PlannedFields c.droppedStart id plans := by
  obtain ⟨id, hreach, hclass, hplanned⟩ :=
    exists_of_object_mem_plans hg.built.consistent hu hp
  exact ⟨id, hplanned, exists_chainFields hg hu hreach hclass hplanned⟩

/-- The schema of notes loads to their graph. -/
theorem load_noteSchema : Example.noteSchema.load = .ok ⟨Example.noteGraph, [⟨33⟩]⟩ :=
  Schema.load_eq_of_types (by decide +kernel)

/-- Codecs are generated for notes, that of the record first. -/
theorem exists_generate_note (c : GeneratorConfig) (plans : List CodecPlan)
    (hplans : [⟨32⟩, ⟨33⟩].mapM (Example.noteGraph.plan c.droppedStart) = .ok plans) :
    ∃ u, c.generateSchema ⟨Example.noteGraph, [⟨33⟩]⟩ = .ok u ∧ u.plans = plans ∧
      u.link = .ofPlans c.tagMember plans := by
  -- The walk enters the note and then the record above it.
  have hcons := (Schema.built_of_load load_noteSchema).consistent
  have hcheck : Example.noteGraph.checkSupported [⟨33⟩] [⟨33⟩, ⟨32⟩, .string] = true := by cbv
  obtain ⟨u, hu⟩ := exists_generate hcons c (supported_of_checkSupported hcheck)
  have horder : (c.walk Example.noteGraph [⟨33⟩]).registry.order = [⟨32⟩, ⟨33⟩] :=
    order_walk_eq 5 (by cbv)
  exact ⟨u, hu, plans_eq hcons hu horder hplans⟩

/-- If the fields of a class and of the classes above it have different names, the members for those
of each class differ; and all of them differ exactly when no field is written under a shortened name
under which another one is written that keeps its own. -/
theorem nodup_wireNames_iff {s : Schema} {loaded : LoadedSchema} (hs : s.load = .ok loaded)
    (hu : c.generateSchema loaded = .ok u) {p : ObjectPlan} (hp : .object p ∈ u.plans) :
    ∃ plans, u.link.chainFields p = .ok plans ∧ ((plans.map (·.name)).Nodup →
      (p.fields.map (·.wireName)).Nodup ∧
      ((plans.map (·.wireName)).Nodup ↔ ∀ a ∈ plans, ∀ b ∈ plans,
        a.wireName ≠ a.name → b.wireName = b.name → b.name ≠ a.wireName)) := by
  have hg := loadedGraph_of_load hs
  obtain ⟨id, hplanned, plans, hplans, hall⟩ := exists_plannedFields hg hu hp
  refine ⟨plans, hplans, fun hnodup => ⟨?_, fun hwires a ha b hb hshort hkept heq => ?_,
    fun hmeet => ?_⟩⟩
  · -- The fields of the class itself are the last ones of all fields.
    obtain ⟨hown, hnames⟩ := hplanned.ownFields
    rw [hnames]
    refine nodup_wireName (hnodup.sublist ?_)
    rw [hall.map_name, allFields, lineage, List.reverse_cons, List.flatMap_append,
      List.flatMap_singleton]
    exact (List.sublist_append_right _ _).map _
  -- One member for a shortened field and a kept one would make them one field.
  · have hab : a = b := List.inj_on_of_nodup_map hwires ha hb (heq.symm.trans hkept.symm)
    exact hshort (hab ▸ hkept)
  · -- Two fields of one wire name: one has the name of its own that the other is shortened to.
    refine List.Nodup.map_on (fun a ha b hb heq => ?_) (List.Nodup.of_map _ hnodup)
    obtain ⟨x, -, f, -, hname, hwire⟩ := hall.exists_wireName ha
    obtain ⟨y, -, f', -, hname', hwire'⟩ := hall.exists_wireName hb
    rw [hwire, hwire'] at heq
    rcases wireName_eq heq with hsame | ⟨hne, hkept⟩ | ⟨hne, hkept⟩
    · exact List.inj_on_of_nodup_map hnodup ha hb (hname.trans (hsame.trans hname'.symm))
    · refine absurd ?_ (hmeet a ha b hb (by rwa [hwire, hname]) (by rw [hwire', hname', hkept]))
      rw [hwire, hname', heq, hkept]
    · refine absurd ?_ (hmeet b hb a ha (by rwa [hwire', hname']) (by rw [hwire, hname, hkept]))
      rw [hwire', hname, ← heq, hkept]

/-- The plans of the fields of a note, without the prefix `my`. -/
def shortNoteFields : List FieldPlan :=
  [⟨"myTitle", "title", false, .string⟩, ⟨"title", "title", false, .string⟩]

/-- Where `my` is dropped, both titles of a note are written as `title`. -/
private theorem exists_shortNote :
    ∃ u, Example.dropsMy.generateSchema ⟨Example.noteGraph, [⟨33⟩]⟩ = .ok u ∧
      ∃ p, .object p ∈ u.plans ∧ p.typeName = "Note" ∧
        u.link.chainFields p = .ok shortNoteFields := by
  obtain ⟨u, hu, hplans, hlink⟩ := exists_generate_note Example.dropsMy [
    .object ⟨"Record", false, none, ["Note"], [⟨"myTitle", "title", false, .string⟩]⟩,
    .object ⟨"Note", false, some "Record", [], [⟨"title", "title", false, .string⟩]⟩] (by cbv)
  refine ⟨u, hu, ⟨"Note", false, some "Record", [], [⟨"title", "title", false, .string⟩]⟩, ?_,
    rfl, by rw [hlink]; rfl⟩
  rw [hplans]
  exact List.mem_cons_of_mem _ List.mem_cons_self

/-- The two titles of a note have different names, and members of one name. -/
theorem not_nodup_wireNames :
    Example.noteSchema.load = .ok ⟨Example.noteGraph, [⟨33⟩]⟩ ∧
    ∃ u, Example.dropsMy.generateSchema ⟨Example.noteGraph, [⟨33⟩]⟩ = .ok u ∧
      ∃ p, .object p ∈ u.plans ∧ p.typeName = "Note" ∧
        ∃ plans, u.link.chainFields p = .ok plans ∧
          plans.map (·.name) = ["myTitle", "title"] ∧
          plans.map (·.wireName) = ["title", "title"] := by
  obtain ⟨u, hu, p, hp, hname, hchain⟩ := exists_shortNote
  exact ⟨load_noteSchema, u, hu, p, hp, hname, shortNoteFields, hchain, rfl, rfl⟩

/-- The title that a note adds has a member of its own among those that it adds, but not among all
members of a note. -/
theorem nodup_wireNames_iff_note :
    Example.noteSchema.load = .ok ⟨Example.noteGraph, [⟨33⟩]⟩ ∧
    ∃ u, Example.dropsMy.generateSchema ⟨Example.noteGraph, [⟨33⟩]⟩ = .ok u ∧
      ∃ p, .object p ∈ u.plans ∧ ∃ plans, u.link.chainFields p = .ok plans ∧
        (plans.map (·.name)).Nodup ∧ (p.fields.map (·.wireName)).Nodup ∧
          ¬ (plans.map (·.wireName)).Nodup := by
  obtain ⟨u, hu, p, hp, -, hchain⟩ := exists_shortNote
  obtain ⟨plans, hchain', hiff⟩ := nodup_wireNames_iff load_noteSchema hu hp
  cases hchain.symm.trans hchain'
  -- The names of the two fields differ, so the condition decides about the members.
  have hnodup : (shortNoteFields.map (·.name)).Nodup := by decide
  obtain ⟨hown, hmeet⟩ := hiff hnodup
  refine ⟨load_noteSchema, u, hu, p, hp, shortNoteFields, hchain, hnodup, hown, fun hwires => ?_⟩
  exact hmeet.1 hwires _ List.mem_cons_self _ (List.mem_cons_of_mem _ List.mem_cons_self)
    (by decide) rfl rfl

end GeneratorConfig

/-! ### The type as a member -/

namespace CodecTable

variable {t : CodecTable} {p q : ObjectPlan}

/-- What is written for the fields of an object are members of their names. -/
private theorem exists_of_mem_encodeMembers {field? : String → Option Encoder}
    {plans : List FieldPlan}
    {members : List (String × Json)} (h : encodeMembers field? plans = .ok members)
    {m : String × Json} (hm : m ∈ members) : ∃ f ∈ plans, m.1 = f.wireName := by
  -- Each member is written for a field of the plans.
  rw [encodeMembers_eq, Except.map_eq_ok] at h
  obtain ⟨ms, hms, rfl⟩ := h
  obtain ⟨o, ho, hmo⟩ := List.mem_flatMap.1 hm
  obtain ⟨f, hf, hfield⟩ := Except.exists_of_mem_mapM hms ho
  rw [Option.mem_toList] at hmo
  cases hmo
  refine ⟨f, hf, ?_⟩
  -- The member has the name of the field in each case in which there is one.
  unfold encodeField at hfield
  split at hfield
  case h_1 =>
    obtain ⟨j, -, heq⟩ := Except.map_eq_ok.1 hfield
    rw [← Option.some.inj heq]
  case h_2 =>
    obtain ⟨j, -, heq⟩ := Except.map_eq_ok.1 hfield
    rw [← Option.some.inj heq]
  case h_3 => cases hfield

/-- An object whose type shows is written with its type first, and its fields behind it. -/
private theorem exists_members_of_encode {plans : List FieldPlan} {fields : List (String × Value)}
    {text : String} (hq : t.object? q.typeName = some q) (hp : t.object? p.typeName = some p)
    (hshows : showsType q p.typeName = true) (hplans : t.chainFields p = .ok plans)
    (h : t.encode (.generated q.typeName) (.object p.typeName fields) = .ok text) :
    ∃ members, Json.parse text = .ok (.object ((t.tagMember, .string p.typeName) :: members)) ∧
      ∀ m ∈ members, ∃ f ∈ plans, m.1 = f.wireName := by
  rw [encode_eq] at h
  obtain ⟨j, hj, rfl⟩ := Except.map_eq_ok.1 h
  have hparse := Json.parse_render (readable_encodeJson hj)
  rw [encodeJson_of_isNull rfl, encodeNonNull_object_eq_ok hq] at hj
  -- The value is an object of the class.
  obtain ⟨typeName, fields', heq, hj⟩ := hj
  cases heq
  -- The type shows if the object is handed on to a subtype, or is of a class that has some.
  have hwriter : t.writerOf q p.typeName = .ok p := by
    unfold writerOf
    split
    case isTrue => exact object_eq_ok.2 hp
    case isFalse hown =>
      rw [showsType, if_neg hown, Bool.and_eq_true, decide_eq_true_eq] at hshows
      rw [hshows.1, hq] at hp
      exact congrArg Except.ok (Option.some.inj hp)
  -- It is written by the codec of its class, type first.
  rw [encodeDispatched_eq, hwriter, hshows] at hj
  have hj : t.encodeUndispatched p true p.typeName _ = .ok j := hj
  rw [encodeUndispatched, hplans] at hj
  obtain ⟨_, heq, hj⟩ := Except.bind_eq_ok.1 hj
  cases heq
  obtain ⟨members, hmembers, hj⟩ := Except.bind_eq_ok.1 hj
  cases hj
  -- The text is read back as the object that was written, and behind the tag stand the fields.
  refine ⟨Json.rereadMembers members, ?_, fun m hm => ?_⟩
  · rw [hparse, if_pos rfl, List.singleton_append, Json.reread, Json.rereadMembers, Json.reread]
  · rw [Json.rereadMembers_eq_map] at hm
    obtain ⟨m', hm', rfl⟩ := List.mem_map.1 hm
    obtain ⟨f, hf, hname⟩ := exists_of_mem_encodeMembers hmembers hm'
    exact ⟨f, hf, hname⟩

/-- A field is not read from a member of another name. -/
private theorem readField_cons {f : FieldPlan} {name : String} (h : f.wireName ≠ name) (j : Json)
    (members : List (String × Json)) :
    t.readField ((name, j) :: members) f = t.readField members f := by
  unfold readField
  rw [member?_cons, if_neg h]

end CodecTable

namespace GeneratorConfig

open TypeGraph CodecTable Value

variable {g : TypeGraph} {roots : List TypeId} {c : GeneratorConfig} {u : GeneratedUnit}

/-- Where the type of an object is written, it is the first member, whatever the fields are
called. If no field of the class or of the classes above it is called like the tag, under its
own name or its shortened one, no other member of the object is, and none of its fields is read
from the type. -/
theorem tag_apart_from_fields {s : Schema} {loaded : LoadedSchema} (hs : s.load = .ok loaded)
    (hu : c.generateSchema loaded = .ok u) {p : ObjectPlan} (hp : .object p ∈ u.plans) :
    ∃ plans, u.link.chainFields p = .ok plans ∧
      (∀ q, .object q ∈ u.plans → showsType q p.typeName = true → ∀ fields text,
        u.link.encode (.generated q.typeName) (.object p.typeName fields) = .ok text →
          ∃ members,
            Json.parse text = .ok (.object ((c.tagMember, .string p.typeName) :: members)) ∧
            ∀ m ∈ members, ∃ f ∈ plans, m.1 = f.wireName) ∧
      ((∀ f ∈ plans, f.name ≠ c.tagMember ∧ shortName? c.droppedStart f.name ≠ some c.tagMember) →
        ∀ f ∈ plans, f.wireName ≠ c.tagMember ∧ ∀ j members,
          u.link.readField ((c.tagMember, j) :: members) f = u.link.readField members f) := by
  have hg := loadedGraph_of_load hs
  have hcons := hg.built.consistent
  have htag : u.link.tagMember = c.tagMember := by
    rw [tagMember_link, (generate_eq_ok hcons hu).2.1]
  obtain ⟨id, -, plans, hplans, hall⟩ := exists_plannedFields hg hu hp
  -- The type comes first where it is written.
  refine ⟨plans, hplans, fun q hq hshows fields text h => ?_, fun hnames f hf => ?_⟩
  · rw [← htag]
    exact exists_members_of_encode (object?_link hcons hu hq) (object?_link hcons hu hp) hshows
      hplans h
  -- A member with another name than the tag is not affected by it.
  · obtain ⟨a, -, f', -, hname, hwire⟩ := hall.exists_wireName hf
    have hne : f.wireName ≠ c.tagMember := by
      -- A wire name is the name of a field or its shortened form.
      intro heq
      rw [heq] at hwire
      rcases wireName_cases c.droppedStart (loaded.graph.serializableFields a) f'.name with
        hkept | ⟨hshort, -⟩
      -- The field keeps its name, or it is shortened to it.
      · exact (hnames f hf).1 (hname.trans (hkept.symm.trans hwire.symm))
      · exact (hnames f hf).2 (by rw [hname, hshort, hwire])
    exact ⟨hne, readField_cons hne⟩

/-- The plan of records, with the title under its own name. -/
def recordPlan : ObjectPlan :=
  ⟨"Record", false, none, ["Note"], [⟨"myTitle", "myTitle", false, .string⟩]⟩

/-- The plan of notes, with the title under its own name. -/
def notePlan : ObjectPlan :=
  ⟨"Note", false, some "Record", [], [⟨"title", "title", false, .string⟩]⟩

/-- A note that is written as a record begins with its type, and its titles are other members. -/
theorem tag_apart_from_titles :
    let note := Value.object "Note" [("title", .string "Groceries")]
    let text := (Json.object [("_type_", .string "Note"), ("title", .string "Groceries")]).render
    Example.noteSchema.load = .ok ⟨Example.noteGraph, [⟨33⟩]⟩ ∧
    ∃ u, standard.generateSchema ⟨Example.noteGraph, [⟨33⟩]⟩ = .ok u ∧
      .object notePlan ∈ u.plans ∧ .object recordPlan ∈ u.plans ∧
      showsType recordPlan "Note" = true ∧
      u.link.encode (.generated "Record") note = .ok text ∧
      ∃ plans, u.link.chainFields notePlan = .ok plans ∧
        (∃ members, Json.parse text = .ok (.object (("_type_", .string "Note") :: members)) ∧
          ∀ m ∈ members, ∃ f ∈ plans, m.1 = f.wireName) ∧
        (∀ f ∈ plans, f.name ≠ "_type_" ∧ shortName? none f.name ≠ some "_type_") ∧
        ∀ f ∈ plans, f.wireName ≠ "_type_" ∧ ∀ j members,
          u.link.readField (("_type_", j) :: members) f = u.link.readField members f := by
  intro note text
  -- Both classes have a plan, that of the record first.
  obtain ⟨u, hu, hplans, hlink⟩ :=
    exists_generate_note standard [.object recordPlan, .object notePlan] (by cbv)
  have hrecord : .object recordPlan ∈ u.plans := hplans ▸ List.mem_cons_self
  have hnote : .object notePlan ∈ u.plans :=
    hplans ▸ List.mem_cons_of_mem _ List.mem_cons_self
  have htext : u.link.encode (.generated "Record") note = .ok text := by
    rw [hlink]
    decide +kernel
  obtain ⟨plans, hchain, hfirst, hapart⟩ := tag_apart_from_fields load_noteSchema hu hnote
  -- A note has the fields of a record and its own.
  have hfields : plans = recordPlan.fields ++ notePlan.fields := by
    rw [hlink] at hchain
    exact (Except.ok.inj hchain).symm
  have hnames : ∀ f ∈ plans, f.name ≠ "_type_" ∧ shortName? none f.name ≠ some "_type_" := by
    rw [hfields]
    decide
  exact ⟨load_noteSchema, u, hu, hnote, hrecord, by decide +kernel, htext, plans, hchain,
    hfirst recordPlan hrecord (by decide +kernel) _ text htext, hnames, hapart hnames⟩

/-- If the tag is called `title`, the title of a note that was written as a record is read back as
the name of its type. -/
theorem field_read_from_tag :
    Example.noteSchema.load = .ok ⟨Example.noteGraph, [⟨33⟩]⟩ ∧
    ∃ u, Example.tagsTitle.generateSchema ⟨Example.noteGraph, [⟨33⟩]⟩ = .ok u ∧
      .object notePlan ∈ u.plans ∧ .object recordPlan ∈ u.plans ∧
      showsType recordPlan "Note" = true ∧
      (∃ plans, u.link.chainFields notePlan = .ok plans ∧
        ∃ f ∈ plans, f.wireName = Example.tagsTitle.tagMember) ∧
      ∃ text, u.link.encode (.generated "Record")
          (.object "Note" [("title", .string "Groceries")]) = .ok text ∧
        u.link.decode (.generated "Record") text =
          .ok (.object "Note" [("title", .string "Note")]) := by
  obtain ⟨u, hu, hplans, hlink⟩ :=
    exists_generate_note Example.tagsTitle [.object recordPlan, .object notePlan] (by cbv)
  refine ⟨load_noteSchema, u, hu, hplans ▸ List.mem_cons_of_mem _ List.mem_cons_self,
    hplans ▸ List.mem_cons_self, by decide +kernel, ?_, ?_⟩
  -- One of the titles is written under the name of the tag.
  · refine ⟨recordPlan.fields ++ notePlan.fields, by rw [hlink]; rfl,
      ⟨"title", "title", false, .string⟩, by decide, rfl⟩
  -- The type is written first, and the title is read from it.
  · refine
      ⟨(Json.object [("title", .string "Note"), ("title", .string "Groceries")]).render, ?_, ?_⟩
    · rw [hlink]
      decide +kernel
    · rw [hlink]
      cbv

end GeneratorConfig

end GraphCodec
