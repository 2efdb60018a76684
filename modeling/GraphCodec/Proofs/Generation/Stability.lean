import GraphCodec.Example.Overlap
import GraphCodec.Proofs.Codec.Decoded
import GraphCodec.Proofs.Generation.RoundTrip

/-!
# Decoded values

With the table of a generated unit, whatever JSON value is decoded through the codec of a reachable
type comes out as null or as a complete value of the type (`TypeGraph.Complete`): a well-typed one
with all its primitive fields set.  Filling in zeros leaves a complete value as it is, so it is
written and its text is decoded as the same value again
(`GeneratorConfig.decode_encode_of_decode`).

An object has one field under each name.  So classes along a lineage that declare a field of one
name with different types share one value between them, and what is decoded need not suit both
(`GeneratorConfig.not_decode_encode_of_redeclared`).
-/

namespace GraphCodec

namespace Classification

/-- Whether values are read back as they are and no key of a map is made of the name of a member:
such a name can stand for null, which is no key that is written as a name. -/
def isExact : Classification → Bool
  | primitive s | boxed s => s.isExact
  | string | enum | userClass _ | sequence _ _ => true
  | map _ _ .text | map _ _ .paired => true
  | _ => false

end Classification

namespace TypeGraph

open Value CodecTable

variable {g : TypeGraph} {roots : List TypeId} {start id : TypeId} {v : Value}

/-! ### Types of parts -/

/-- Whether values of a type may stand in those of another, at any depth. -/
inductive StandsIn (g : TypeGraph) (start : TypeId) : TypeId → Prop where
  | self : StandsIn g start start
  | element {id p : TypeId} :
    StandsIn g start id → p ∈ (g.classify id).elements → StandsIn g start p
  | field {id declared runtime : TypeId} {f : Field} :
    StandsIn g start id → g.classify id = .userClass declared → g.Holds declared runtime →
      f ∈ g.allFields runtime → StandsIn g start f.type

/-- What stands in values of a type is reachable from it. -/
theorem StandsIn.reach (hg : g.LoadedGraph) (h : g.StandsIn start id) : g.Reach [start] id := by
  induction h with
  | self => exact .root List.mem_cons_self
  | @element id p _ hp ih =>
    -- Elements are reached as those of a sequence, or as keys or values of a map.
    cases hclass : g.classify id with
    | sequence shape element =>
      rw [hclass] at hp
      rw [List.mem_singleton.1 hp]
      exact .element ih hclass
    | map key value keys =>
      rw [hclass] at hp
      rcases List.mem_cons.1 hp with rfl | hp
      · exact .key ih hclass
      · rw [List.mem_singleton.1 hp]
        exact .value ih hclass
    | _ =>
      rw [hclass] at hp
      cases hp
  | @field id declared runtime f _ hid hholds hf ih =>
    -- Objects are of classes that can be reached, and so are the types of their fields.
    have hreach := Reach.rawClass ih hid
    obtain ⟨hreach', hclass', -⟩ := hholds.reach hg hreach (classify_userClass_self hid)
    exact GeneratorConfig.reach_field hg hreach' hclass' hf

/-- The types whose values may stand directly in those of a type. -/
def contents (g : TypeGraph) (id : TypeId) : List TypeId :=
  (g.classify id).elements ++
    match g.classify id with
    | .userClass declared =>
      ((declared :: g.concreteSubtypes declared).flatMap g.allFields).map (·.type)
    | _ => []

/-- Checks that some types are exact, and that nothing but values of them stands in their values. -/
def checkExact (g : TypeGraph) (types : List TypeId) : Bool :=
  types.all fun id => (g.classify id).isExact && (g.contents id).all fun p => decide (p ∈ types)

/-- If types were checked that contain whatever stands in a value, all that stands in it is
exact. -/
private theorem isExact_of_checkExact {types : List TypeId} (h : g.checkExact types = true)
    (hstart : start ∈ types) (hid : g.StandsIn start id) : (g.classify id).isExact = true := by
  have hclosed : ∀ id ∈ types, (g.classify id).isExact = true ∧ ∀ p ∈ g.contents id, p ∈ types := by
    intro id hid
    have hcheck := List.all_eq_true.1 h id hid
    rw [Bool.and_eq_true, List.all_eq_true] at hcheck
    exact ⟨hcheck.1, fun p hp => of_decide_eq_true (hcheck.2 p hp)⟩
  -- What was checked is closed, so it holds the type.
  have hmem : id ∈ types := by
    induction hid with
    | self => exact hstart
    | @element id p _ hp ih => exact (hclosed id ih).2 p (List.mem_append_left _ hp)
    | @field id declared runtime f _ hclass hholds hf ih =>
      refine (hclosed id ih).2 f.type (List.mem_append_right _ ?_)
      have hruntime : runtime ∈ declared :: g.concreteSubtypes declared := by
        cases hholds with
        | inl hself => exact hself.1 ▸ List.mem_cons_self
        | inr hsub => exact List.mem_cons_of_mem _ hsub
      rw [hclass]
      exact List.mem_map_of_mem (List.mem_flatMap.2 ⟨runtime, hruntime, hf⟩)
  exact (hclosed id hmem).1

/-! ### Complete values -/

/-- The values of a type that are not null and have all primitive fields set, at any depth.  What
may be null is left out where it is. -/
inductive Complete (g : TypeGraph) : TypeId → Value → Prop where
  | scalar {id : TypeId} {s : Scalar} {v : Value} :
    g.classify id = .primitive s ∨ g.classify id = .boxed s → s.Admits v → Complete g id v
  | string {id : TypeId} (s : String) :
    g.classify id = .string → Complete g id (.string s)
  | enum {id : TypeId} {variants : List String} {variant : String} :
    g.kind id = .enumType variants → variant ∈ variants →
      Complete g id (.enum (g.name id) variant)
  /-- No two elements of a set are equal. -/
  | sequence {id element : TypeId} {shape : Shape} {items : List Value} :
    g.classify id = .sequence shape element →
      (∀ v ∈ items, v ≠ .null → Complete g element v) →
      (shape = .set → items.Pairwise fun a b => a.same b = false) →
        Complete g id (.sequence shape items)
  /-- No two keys are equal, and a key that is a text is not null. -/
  | map {id key value : TypeId} {keys : MapKeys} {entries : List (Value × Value)} :
    g.classify id = .map key value keys →
      (∀ e ∈ entries, e.1 ≠ .null → Complete g key e.1) →
      (∀ e ∈ entries, e.2 ≠ .null → Complete g value e.2) →
      (keys ≠ .paired → ∀ e ∈ entries, e.1 ≠ .null) →
      (entries.Pairwise fun e e' => e.1.same e'.1 = false) →
        Complete g id (.map entries)
  /-- The object is of the declared class or of a subtype, and that has instances; its fields are
  those of its class and the classes above it, and the primitive ones are set. -/
  | object {id declared runtime : TypeId} {fields : List (String × Value)} :
    g.classify id = .userClass declared → g.Holds declared runtime → Ascending fields →
      (∀ e ∈ fields, ∃ f ∈ g.allFields runtime, f.name = e.1) →
      (∀ e ∈ fields, ∀ f ∈ g.allFields runtime, f.name = e.1 → Complete g f.type e.2) →
      (∀ f ∈ g.allFields runtime, ∀ s, g.classify f.type = .primitive s →
        (getField? fields f.name).isSome) →
        Complete g id (.object (g.name runtime) fields)

/-- There is nothing to fill in a complete value. -/
theorem Complete.fillZeros_eq (hg : g.LoadedGraph) (h : g.Complete id v) : g.fillZeros v = v := by
  -- Null may stand in any container, and there is nothing to fill in either.
  have hself : ∀ {w : Value}, (w ≠ .null → g.fillZeros w = w) → g.fillZeros w = w := by
    intro w hw
    by_cases hnull : w = .null
    · rw [hnull, fillZeros_null]
    · exact hw hnull
  induction h with
  | scalar _ hadmits => exact fillZeros_of_admits hadmits
  | string s _ => exact fillZeros_string s
  | enum _ _ => exact fillZeros_enum _ _
  -- The items of a sequence, and the entries of a map, are complete or null.
  | @sequence id element shape items _ _ _ ih =>
    have hitems : items.map g.fillZeros = items :=
      List.map_congr_left (fun v hv => hself (ih v hv)) |>.trans (List.map_id _)
    rw [fillZeros, fillItems_eq_map, hitems]
  | @map id key value keys entries _ _ _ _ _ ihk ihv =>
    have hentries : entries.map (fun e => (g.fillZeros e.1, g.fillZeros e.2)) = entries := by
      refine List.map_congr_left (fun e he => ?_) |>.trans (List.map_id _)
      rw [hself (ihk e he), hself (ihv e he)]
      rfl
    rw [fillZeros, fillEntries_eq_map, hentries]
  | @object id declared runtime fields hid hholds hasc hnames _ hset ih =>
    have hreach : g.Reach [declared] declared := .root List.mem_cons_self
    obtain ⟨-, hclass, -⟩ := hholds.reach hg hreach (classify_userClass_self hid)
    rw [fillZeros, hg.built.consistent.classNamed?_eq hclass]
    -- Under each name stands what stood there before.
    have hfields : g.setZeros runtime (g.fillFields fields) = fields := by
      refine (ascending_setZeros (ascending_fillFields hasc)).ext hasc fun name => ?_
      rw [getField?_setZeros, getField?_fillFields]
      cases hget : getField? fields name with
      | some w =>
        have hmem := mem_of_getField? hget
        obtain ⟨f, hf, hname⟩ := hnames _ hmem
        rw [Option.map_some, ih _ hmem f hf hname, Option.some_or]
      | none =>
        -- A field with a zero would be set.
        rw [Option.map_none, Option.none_or, zeroNamed?]
        cases hfield : g.field? runtime name with
        | none => rfl
        | some f =>
          have hfound : (g.allFields runtime).reverse.find? (fun f => f.name == name) = some f :=
            hfield
          have hf := List.mem_reverse.1 (List.mem_of_find?_eq_some hfound)
          have hcond := List.find?_some hfound
          have hname : f.name = name := beq_iff_eq.1 hcond
          show g.zero? f = none
          unfold zero?
          split
          case h_1 s hclass =>
            have hsome := hset f hf s hclass
            rw [hname, hget] at hsome
            cases hsome
          case h_2 => rfl
    show Value.object _ (g.setZeros runtime (g.fillFields fields)) = _
    rw [hfields]

/-- A complete value is well-typed. -/
private theorem Complete.wellTyped (hg : g.LoadedGraph) (h : g.Complete id v) :
    g.WellTyped id v := by
  -- Filling in zeros changes nothing, so sets and maps keep what differs.
  have hfill : ∀ {type : TypeId} {w : Value}, (w ≠ .null → g.Complete type w) →
      g.fillZeros w = w := by
    intro type w hw
    by_cases hnull : w = .null
    · rw [hnull, fillZeros_null]
    · exact (hw hnull).fillZeros_eq hg
  induction h with
  | scalar hid hadmits => exact .scalar hid hadmits
  | string s hid => exact .string s hid
  | enum hkind hvariant => exact .enum hkind hvariant
  | sequence hid hitems hset ih =>
    refine .sequence hid ih fun hshape => (hset hshape).imp_of_mem fun ha hb hne => ?_
    rw [hfill (hitems _ ha), hfill (hitems _ hb), hne]
  | map hid hkeys _ hnull hdiffer ihk ihv =>
    refine .map hid ihk ihv hnull (hdiffer.imp_of_mem fun ha hb hne => ?_)
    rw [hfill (hkeys _ ha), hfill (hkeys _ hb), hne]
  | object hid hholds hasc hnames _ _ ih => exact .object hid hholds hasc hnames ih

/-! ### Reading fields -/

/-- Whether fields of one name, along a lineage, have one type. -/
def UniformFields (g : TypeGraph) (start : TypeId) : Prop :=
  ∀ id, g.Reach [start] id → g.classify id = .userClass id →
    ∀ f ∈ g.allFields id, ∀ f' ∈ g.allFields id, f.name = f'.name → f.type = f'.type

/-- Checks that fields of one name, along the lineage of any class, have one type. -/
def checkUniform (g : TypeGraph) : Bool :=
  g.places.all fun id => (g.allFields id).all fun f => (g.allFields id).all fun f' =>
    decide (f.name = f'.name → f.type = f'.type)

/-- If the fields of each class were checked, those of one name have one type. -/
private theorem uniformFields_of_checkUniform (h : g.checkUniform = true) (start : TypeId) :
    g.UniformFields start := by
  intro id _ hclass f hf f' hf'
  have hid := List.all_eq_true.1 h id (show g.WrittenBy id id from Or.inr hclass).mem_places
  exact of_decide_eq_true (List.all_eq_true.1 (List.all_eq_true.1 hid f hf) f' hf')

/-- What has been read for a field: a complete value of its type, or null unless the field is
primitive. -/
structure ReadFor (g : TypeGraph) (f : Field) (e : String × Value) : Prop where
  name : e.1 = f.name
  complete : e.2 ≠ .null → g.Complete f.type e.2
  ne_null : ∀ s, g.classify f.type = .primitive s → e.2 ≠ .null

/-- What has been read is looked up under the names of the fields. -/
private theorem lookup_of_readFor {fields : List Field} {read : List (String × Value)}
    (h : List.Forall₂ g.ReadFor fields read) (name : String) :
    fields.find? (·.name == name) = none ∧ read.lookup name = none ∨
      ∃ f v, fields.find? (·.name == name) = some f ∧ read.lookup name = some v ∧
        g.ReadFor f (name, v) := by
  induction h with
  | nil => exact Or.inl ⟨rfl, rfl⟩
  | @cons f e fields read he _ ih =>
    obtain ⟨k, v⟩ := e
    have hk : k = f.name := he.name
    rw [List.find?_cons, List.lookup_cons]
    -- The first field has the name, or the others are looked through.
    by_cases hname : f.name = name
    · rw [hk, hname, beq_self_eq_true]
      exact Or.inr ⟨f, v, rfl, rfl, hname ▸ hk ▸ he⟩
    · rw [hk, beq_eq_false_iff_ne.2 hname, beq_eq_false_iff_ne.2 (Ne.symm hname)]
      exact ih

/-- An object with what has been read for the fields of its class is complete. -/
private theorem complete_assign {declared runtime : TypeId}
    (hid : g.classify id = .userClass declared)
    (hholds : g.Holds declared runtime) {read : List (String × Value)}
    (hread : List.Forall₂ g.ReadFor (g.allFields runtime) read)
    (huniform : ∀ f ∈ g.allFields runtime, ∀ f' ∈ g.allFields runtime,
      f.name = f'.name → f.type = f'.type) :
    g.Complete id (.object (g.name runtime) (assign [] read)) := by
  have hasc : Ascending (assign [] read) := ascending_assign List.Pairwise.nil read
  -- Of the fields of one name, the last one is what stays.
  have hlast : ∀ name, getField? (assign [] read) name = none ∧
      (∀ f ∈ g.allFields runtime, f.name ≠ name) ∨
        ∃ f ∈ g.allFields runtime, ∃ v, f.name = name ∧ g.ReadFor f (name, v) ∧
          getField? (assign [] read) name = v.present? := by
    intro name
    rw [getField?_assign]
    rcases lookup_of_readFor (List.forall₂_reverse_iff.2 hread) name with
      ⟨hfind, hlookup⟩ | ⟨f, v, hfind, hlookup, hf⟩
    · rw [hlookup]
      refine Or.inl ⟨rfl, fun f hf hname => ?_⟩
      exact List.find?_eq_none.1 hfind f (List.mem_reverse.2 hf) (beq_iff_eq.2 hname)
    · rw [hlookup]
      have hcond := List.find?_some hfind
      exact Or.inr ⟨f, List.mem_reverse.1 (List.mem_of_find?_eq_some hfind), v,
        beq_iff_eq.1 hcond, hf, rfl⟩
  -- What stands in the object was read for a field of that name.
  have hfound : ∀ e ∈ assign [] read,
      ∃ f ∈ g.allFields runtime, f.name = e.1 ∧ g.Complete f.type e.2 := by
    intro e he
    have hget := hasc.getField?_of_mem he
    rcases hlast e.1 with ⟨hnone, -⟩ | ⟨f, hf, v, hname, hfor, hpresent⟩
    · rw [hnone] at hget
      cases hget
    · rw [hpresent, present?] at hget
      split at hget
      case isTrue => cases hget
      case isFalse hnull =>
        cases hget
        exact ⟨f, hf, hname, hfor.complete fun heq => hnull (isNull_iff.2 heq)⟩
  -- The object has fields of its class only, of the right types, and all primitive ones are set.
  refine .object hid hholds hasc ?_ ?_ ?_
  · intro e he
    obtain ⟨f, hf, hname, -⟩ := hfound e he
    exact ⟨f, hf, hname⟩
  · intro e he f hf hname
    obtain ⟨f', hf', hname', hcomplete⟩ := hfound e he
    rw [huniform f hf f' hf' (hname.trans hname'.symm)]
    exact hcomplete
  · intro f hf s hclass
    rcases hlast f.name with ⟨-, hnone⟩ | ⟨f', hf', v, hname, hfor, hpresent⟩
    · exact absurd rfl (hnone f hf)
    · have hnull : v ≠ .null := hfor.ne_null s (huniform f' hf' f hf hname ▸ hclass)
      rw [hpresent, present?, if_neg fun h => hnull (isNull_iff.1 h)]
      rfl

/-- Whether whatever is decoded from JSON below a weight is null or complete, through the codecs of
the types that stand in values of a type. -/
def CompleteBelow (g : TypeGraph) (t : CodecTable) (start : TypeId) (weight : Nat) : Prop :=
  ∀ {type : TypeId} {ref : CodecRef} {w : Value}, g.StandsIn start type →
    g.codecRef type = .ok ref → t.DecodesBelow weight ref w → w ≠ .null → g.Complete type w

/-- What a field is read as is a complete value of its type, if that is so for the value of its
member. -/
private theorem PlannedField.readFor {f : Field} {p : FieldPlan} (h : g.PlannedField f p)
    (hexact : (g.classify f.type).isExact = true) {w : Value}
    (hw : w ≠ .null → g.Complete f.type w) :
    g.ReadFor f (p.name, fieldValue p w) := by
  -- A null becomes the zero of a primitive field and stays null in any other.
  by_cases hnull : w = .null
  · rw [hnull, h.fieldValue_null]
    have hzero : ∀ s, g.classify f.type = .primitive s → g.zero? f = some s.zero := by
      intro s hs
      rw [zero?, hs]
    refine ⟨h.name, fun hne => ?_, fun s hs => ?_⟩
    · cases hclass : g.classify f.type with
      | primitive s =>
        rw [hzero s hclass]
        rw [hclass] at hexact
        exact .scalar (Or.inl hclass) (Scalar.admits_zero hexact)
      | _ =>
        refine absurd ?_ hne
        rw [zero?, hclass]
        rfl
    · rw [hzero s hs]
      intro heq
      have hzeroNull := isNull_iff.2 heq
      rw [Option.getD_some, Scalar.isNull_zero] at hzeroNull
      cases hzeroNull
  -- A value that is not null is kept.
  · have hfalse : w.isNull = false := Bool.eq_false_iff.2 fun h => hnull (isNull_iff.1 h)
    rw [fieldValue_of_isNull p hfalse]
    exact ⟨h.name, hw, fun _ _ => hnull⟩

end TypeGraph

namespace GeneratorConfig

open TypeGraph CodecTable Value

variable {g : TypeGraph} {roots : List TypeId} {c : GeneratorConfig} {u : GeneratedUnit}

section Decoded

variable (hg : g.LoadedGraph) (hu : c.generate g roots = .ok u)

include hg hu

/-- The plans to which a class hands on objects are those of classes that it can hold. -/
private theorem exists_holds {declared : TypeId} (hreach : g.Reach roots declared)
    (hclass : g.classify declared = .userClass declared) {p q : ObjectPlan}
    (hp : g.PlannedObject c.droppedStart declared p)
    (hq : q = p ∨ q.typeName ∈ p.subtypes ∧ u.link.object? q.typeName = some q)
    (hconcrete : q.isAbstract = false) :
    ∃ runtime, g.Holds declared runtime ∧ g.PlannedObject c.droppedStart runtime q := by
  have hcons := hg.built.consistent
  rcases hq with rfl | ⟨hname, hobject⟩
  -- The object is of the declared class itself, or handed on to a subtype of it.
  · exact ⟨declared, Or.inl ⟨rfl, hp.isAbstract ▸ hconcrete⟩, hp⟩
  · rw [hp.subtypes] at hname
    obtain ⟨runtime, hsub, hruntime⟩ := List.mem_map.1 hname
    have hholds : g.Holds declared runtime := Or.inr hsub
    obtain ⟨hreach', hclass', -⟩ := hholds.reach hg hreach hclass
    obtain ⟨q', hq', hplanned⟩ := exists_object_mem_plans hcons hu hreach' hclass'
    have hobject' := object?_link hcons hu hq'
    rw [hplanned.typeName, hruntime, hobject] at hobject'
    exact ⟨runtime, hholds, Option.some.inj hobject' ▸ hplanned⟩

variable {start : TypeId} (hstart : g.Reach roots start)
  (hexact : ∀ id, g.StandsIn start id → (g.classify id).isExact = true)
  (huniform : g.UniformFields start)

omit hu in
include hexact in
/-- A map that is decoded is complete, if its keys and values are. -/
private theorem complete_of_decodeJson_map {id key value : TypeId} {keys : MapKeys} {ref : CodecRef}
    {j : Json} {v : Value} (hid : g.StandsIn start id)
    (hclass : g.classify id = .map key value keys) (href : g.codecRef id = .ok ref)
    (h : u.link.decodeJson ref j = .ok v) (hv : v ≠ .null)
    (hparts : g.CompleteBelow u.link start j.weight) : g.Complete id v := by
  have hkey : g.StandsIn start key := .element hid (by simp [hclass, Classification.elements])
  have hvalue : g.StandsIn start value := .element hid (by simp [hclass, Classification.elements])
  have hok := hexact id hid
  rw [codecRef_eq, hclass] at href
  rw [hclass] at hok
  -- Texts are keys as they are, parsed keys are excluded, and paired ones stand like the values.
  cases keys with
  | text =>
    obtain ⟨r, hr, rfl⟩ := Except.map_eq_ok.1 href
    obtain ⟨entries, rfl, hdiffer, hentries⟩ := exists_of_decodeJson_textKeyMap h hv
    have hstring := hg.classify_of_mapKeys_eq_text (classify_eq_map hclass).symm
    refine .map hclass (fun e he _ => ?_) (fun e he => hparts hvalue hr (hentries e he).2)
      (fun _ e he => ?_) hdiffer
    · obtain ⟨s, hs⟩ := (hentries e he).1
      exact hs ▸ .string s hstring
    · obtain ⟨s, hs⟩ := (hentries e he).1
      rw [hs]
      exact Value.noConfusion
  | paired =>
    obtain ⟨k, hk, href⟩ := Except.bind_eq_ok.1 href
    obtain ⟨r, hr, href⟩ := Except.bind_eq_ok.1 href
    cases href
    obtain ⟨entries, rfl, hdiffer, hentries⟩ := exists_of_decodeJson_pairedMap h hv
    exact .map hclass (fun e he => hparts hkey hk (hentries e he).1)
      (fun e he => hparts hvalue hr (hentries e he).2) (fun hne => absurd rfl hne) hdiffer
  | parsed s => cases hok

include hstart hexact huniform

/-- An object that is decoded is complete, if the values of its fields are. -/
private theorem complete_of_decodeJson_object {id declared : TypeId} {j : Json} {v : Value}
    (hid : g.StandsIn start id) (hclass : g.classify id = .userClass declared)
    (h : u.link.decodeJson (.generated (g.name declared)) j = .ok v) (hv : v ≠ .null)
    (hparts : g.CompleteBelow u.link start j.weight) : g.Complete id v := by
  have hcons := hg.built.consistent
  have hself := classify_userClass_self hclass
  have hreach : g.Reach [start] declared := .rawClass (hid.reach hg) hclass
  obtain ⟨p, hp, hplanned⟩ := exists_object_mem_plans hcons hu (hreach.trans hstart) hself
  have hobject : u.link.object? (g.name declared) = some p :=
    hplanned.typeName ▸ object?_link hcons hu hp
  obtain ⟨q, plans, read, hq, hconcrete, hchain, hread, rfl⟩ :=
    exists_of_decodeJson_object hobject h hv
  -- The object may be of another class than the declared one.
  obtain ⟨runtime, hholds, hplanned'⟩ :=
    exists_holds hg hu (hreach.trans hstart) hself hplanned hq hconcrete
  obtain ⟨hreach', hclass', -⟩ := hholds.reach hg hreach hself
  obtain ⟨plans', hchain', hall⟩ :=
    exists_chainFields hg hu (hreach'.trans hstart) hclass' hplanned'
  cases hchain.symm.trans hchain'
  have hfield : ∀ f ∈ g.allFields runtime, g.StandsIn start f.type := fun f hf =>
    .field hid hclass hholds hf
  -- Along the fields, in the order in which they are planned and read.
  have hreadFor : ∀ {fields : List Field} {plans : List FieldPlan} {read : List (String × Value)},
      (∀ f ∈ fields, f ∈ g.allFields runtime) → List.Forall₂ g.PlannedField fields plans →
      List.Forall₂ (u.link.FieldDecodes j.weight) plans read →
        List.Forall₂ g.ReadFor fields read := by
    intro fields plans read hmem hfields
    induction hfields generalizing read with
    | nil =>
      intro hread
      cases hread
      exact .nil
    | @cons f p fields plans hp _ ih =>
      rintro (_ | ⟨⟨w, rfl, hw⟩, hread⟩)
      have hf := hfield f (hmem f List.mem_cons_self)
      refine .cons (hp.readFor (hexact _ hf) fun hnull => ?_)
        (ih (fun f hf => hmem f (List.mem_cons_of_mem _ hf)) hread)
      exact hparts hf (codecRef_of_fieldEncoding hp.encoding) (hw.resolve_left hnull) hnull
  rw [hplanned'.typeName]
  exact complete_assign hclass hholds (hreadFor (fun f hf => hf) hall.fields hread)
    (huniform runtime hreach' hclass')

/-- Whatever is decoded is null or complete. -/
private theorem complete_of_decodeJson {id : TypeId} {ref : CodecRef} {j : Json} {v : Value}
    (hid : g.StandsIn start id) (href : g.codecRef id = .ok ref)
    (h : u.link.decodeJson ref j = .ok v) (hv : v ≠ .null) : g.Complete id v := by
  -- The induction is on the weight of the JSON value; the type may be the same again in its parts.
  induction hn : j.weight using Nat.strongRecOn generalizing j id ref v with
  | ind n ih =>
    subst hn
    have hparts : g.CompleteBelow u.link start j.weight := by
      rintro type ref w htype href ⟨k, hlt, hw⟩ hnull
      exact ih k.weight hlt htype href hw hnull rfl
    have hok := hexact id hid
    cases hclass : g.classify id with
    -- Exact scalars and texts are what their codecs decode.
    | primitive s =>
      rw [codecRef_eq, hclass] at href
      rw [hclass] at hok
      cases href
      rw [decodeJson] at h
      exact .scalar (Or.inl hclass) (Scalar.admits_of_decode hok h hv)
    | boxed s =>
      rw [codecRef_eq, hclass] at href
      rw [hclass] at hok
      cases href
      rw [decodeJson] at h
      exact .scalar (Or.inr hclass) (Scalar.admits_of_decode hok h hv)
    | string =>
      rw [codecRef_eq, hclass] at href
      cases href
      rw [decodeJson] at h
      unfold Codec.decodeString at h
      split at h
      case h_1 =>
        cases h
        exact absurd rfl hv
      case h_2 s =>
        cases h
        exact .string s hclass
      case h_3 => cases h
    -- An enum is decoded as one of its variants.
    | enum =>
      rw [codecRef_eq, hclass] at href
      cases href
      obtain ⟨variants, hkind⟩ := classify_eq_enum hclass
      obtain ⟨hobject, henum⟩ := exists_enum?_link hg hu ((hid.reach hg).trans hstart) hkind
      obtain ⟨variant, hvariant, rfl⟩ := exists_of_decodeJson_enum hobject henum h hv
      exact .enum hkind hvariant
    -- Items and entries come from parts of the JSON value, so the induction applies to them.
    | sequence shape element =>
      rw [codecRef_eq, hclass] at href
      obtain ⟨e, he, rfl⟩ := Except.map_eq_ok.1 href
      obtain ⟨items, rfl, hitems, hset⟩ := exists_of_decodeJson_sequence h hv
      have helement : g.StandsIn start element :=
        .element hid (by simp [hclass, Classification.elements])
      exact .sequence hclass (fun w hw => hparts helement he (hitems w hw)) hset
    | map key value keys =>
      exact complete_of_decodeJson_map hg hexact hid hclass href h hv hparts
    | userClass declared =>
      rw [codecRef_eq, hclass] at href
      cases href
      exact complete_of_decodeJson_object hg hu hstart hexact huniform hid hclass h hv hparts
    -- Nothing else is exact.
    | _ =>
      rw [hclass] at hok
      cases hok

end Decoded

/-- Whatever text is decoded for a reachable type, with the table of a generated unit, yields null
or a complete value; and that value is written, and its text is decoded as the value again.  The
types that may stand in its values are exact, the members of its objects have names of their own,
and fields of one name along a lineage have one type. -/
theorem decode_encode_of_decode {s : Schema} {loaded : LoadedSchema} (hs : s.load = .ok loaded)
    (hu : c.generateSchema loaded = .ok u) {id : TypeId} {ref : CodecRef} {text : String}
    {v : Value}
    (hreach : loaded.graph.Reach loaded.roots id) (href : loaded.graph.codecRef id = .ok ref)
    (hexact : ∀ p, loaded.graph.StandsIn id p → (loaded.graph.classify p).isExact = true)
    (hd : loaded.graph.DistinctMembers c id) (huniform : loaded.graph.UniformFields id)
    (h : u.link.decode ref text = .ok v) :
    (v = .null ∨ loaded.graph.Complete id v) ∧
      ∃ again, u.link.encode ref v = .ok again ∧ u.link.decode ref again = .ok v := by
  have hg := loadedGraph_of_load hs
  have hself : loaded.graph.Reach [id] id := .root List.mem_cons_self
  unfold decode at h
  split at h
  case h_1 j _ =>
    -- What is decoded is complete, so there is nothing to fill in.
    have hcomplete : v ≠ .null → loaded.graph.Complete id v :=
      complete_of_decodeJson hg hu hreach hexact huniform .self href h
    have hfill : loaded.graph.fillZeros v = v := by
      by_cases hnull : v = .null
      · rw [hnull, fillZeros_null]
      · exact (hcomplete hnull).fillZeros_eq hg
    -- It is well-typed as well, so it is read back.
    have hback := readsBack_nullable hg hu hreach href fun hnull =>
      readsBack_of_wellTyped hg hu hreach hd ((hcomplete hnull).wellTyped hg) hself href
    rw [hfill] at hback
    exact ⟨or_iff_not_imp_left.2 hcomplete, hback.decode⟩
  case h_2 => cases h

/-- The table for pets. -/
private theorem link_pets (hu : standard.generate Example.petGraph [⟨35⟩] = .ok u) :
    u.link = .ofPlans CodecTable.defaultTag [
      .enum ⟨"Color", ["RED", "BLACK"]⟩,
      .object ⟨"Dog", false, some "Pet", [], [⟨"age", "age", false, .primitive .int⟩,
        ⟨"color", "color", false, .nested (.generated "Color")⟩]⟩,
      .object ⟨"Pet", true, none, ["Dog"], [⟨"name", "name", false, .string⟩]⟩,
      .object ⟨"Owner", false, none, [], [
        ⟨"marks", "marks", false, .nested (.pairedMap (.generated "Color") (.scalar .int))⟩,
        ⟨"pets", "pets", false, .nested (.sequence .list (.generated "Pet"))⟩]⟩] := by
  have hcons := (Schema.built_of_load Schema.load_petSchema).consistent
  -- The walk enters the owner, then pets and dogs, and colors on the way.
  have horder : (standard.walk Example.petGraph [⟨35⟩]).registry.order =
      [⟨32⟩, ⟨34⟩, ⟨33⟩, ⟨35⟩] := order_walk_eq 10 (by cbv)
  exact (plans_eq hcons hu horder (by cbv)).2

/-- A text with an owner whose marks stand under the names of colours, with a dog that has an age in
quotes and two colours, a pet that is no dog, and one of an unknown class. -/
def ownerText : String :=
  (Json.object [
    ("pets", .array [
      .object [("_type_", .string "Dog"), ("color", .string "RED"), ("color", .string "BLACK"),
        ("age", .string "7")],
      .object [("_type_", .string "Pet")],
      .object [("_type_", .string "Cat")]]),
    ("marks", .object [("RED", .number (.integer 1)), ("BLACK", .null)]),
    ("size", .array [])]).render

/-- The dog keeps its first colour, and the pets of no class with instances are missing. -/
theorem decode_encode_of_decoded_owner :
    let v := Value.object "Owner" [
      ("marks", .map [(.enum "Color" "RED", .int 1), (.enum "Color" "BLACK", .null)]),
      ("pets", .sequence .list [
        .object "Dog" [("age", .int 7), ("color", .enum "Color" "RED")], .null, .null])]
    Example.petSchema.load = .ok ⟨Example.petGraph, [⟨35⟩]⟩ ∧
    Example.petGraph.Reach [⟨35⟩] ⟨35⟩ ∧
    Example.petGraph.codecRef ⟨35⟩ = .ok (.generated "Owner") ∧
    (∀ p, Example.petGraph.StandsIn ⟨35⟩ p → (Example.petGraph.classify p).isExact = true) ∧
    Example.petGraph.DistinctMembers standard ⟨35⟩ ∧
    Example.petGraph.UniformFields ⟨35⟩ ∧
    ∃ u, standard.generateSchema ⟨Example.petGraph, [⟨35⟩]⟩ = .ok u ∧
      u.link.decode (.generated "Owner") ownerText = .ok v ∧
      (v = .null ∨ Example.petGraph.Complete ⟨35⟩ v) ∧
        ∃ again, u.link.encode (.generated "Owner") v = .ok again ∧
          u.link.decode (.generated "Owner") again = .ok v := by
  intro v
  have hload := Schema.load_petSchema
  have hcons := (Schema.built_of_load hload).consistent
  obtain ⟨u, hu⟩ := exists_generate hcons standard supported_petGraph
  have hreach : Example.petGraph.Reach [⟨35⟩] ⟨35⟩ := .root List.mem_cons_self
  have href : Example.petGraph.codecRef ⟨35⟩ = .ok (.generated "Owner") := by
    rw [codecRef_eq]
    cbv
  -- Beside the types of the program, texts and integers stand in an owner.
  have hcheck : Example.petGraph.checkExact [⟨35⟩, ⟨36⟩, ⟨37⟩, ⟨33⟩, ⟨32⟩, .string,
      Primitive.id (.scalar .int), Scalar.boxedId .int] = true := by cbv
  have hexact : ∀ p, Example.petGraph.StandsIn ⟨35⟩ p →
      (Example.petGraph.classify p).isExact = true := fun p hp =>
    isExact_of_checkExact hcheck List.mem_cons_self hp
  have hd : Example.petGraph.DistinctMembers standard ⟨35⟩ :=
    distinctMembers_of_checkMembers (by cbv) _
  have huniform : Example.petGraph.UniformFields ⟨35⟩ := uniformFields_of_checkUniform (by cbv) _
  have hdecode : u.link.decode (.generated "Owner") ownerText = .ok v := by
    rw [link_pets hu]
    cbv
  exact ⟨hload, hreach, href, hexact, hd, huniform, u, hu, hdecode,
    decode_encode_of_decode hload hu hreach href hexact hd huniform hdecode⟩

/-- The schema of persons loads to their graph. -/
private theorem load_personSchema :
    Example.personSchema.load = .ok ⟨Example.personGraph, [⟨33⟩]⟩ :=
  Schema.load_eq_of_types (by decide +kernel)

/-- The table for persons. -/
private theorem link_person (hu : Example.dropsMy.generate Example.personGraph [⟨33⟩] = .ok u) :
    u.link = .ofPlans CodecTable.defaultTag [
      .object ⟨"Record", false, none, ["Person"],
        [⟨"myMyName", "myMyName", false, .primitive .int⟩,
          ⟨"myName", "name", false, .primitive .int⟩]⟩,
      .object ⟨"Person", false, some "Record", [], [⟨"myMyName", "myName", false, .string⟩]⟩] := by
  have hcons := (Schema.built_of_load load_personSchema).consistent
  -- The walk enters the person and then the record above.
  have horder : (Example.dropsMy.walk Example.personGraph [⟨33⟩]).registry.order =
      [⟨32⟩, ⟨33⟩] := order_walk_eq 5 (by cbv)
  exact (plans_eq hcons hu horder (by cbv)).2

/-- A person is decoded with a text in the field that its record holds as an integer, and cannot be
written again.  All members of persons have names of their own. -/
theorem not_decode_encode_of_redeclared :
    let v := Value.object "Person" [("myMyName", .string "Ann"), ("myName", .int 0)]
    Example.personSchema.load = .ok ⟨Example.personGraph, [⟨33⟩]⟩ ∧
    Example.personGraph.Reach [⟨33⟩] ⟨33⟩ ∧
    Example.personGraph.codecRef ⟨33⟩ = .ok (.generated "Person") ∧
    (∀ p, Example.personGraph.StandsIn ⟨33⟩ p →
      (Example.personGraph.classify p).isExact = true) ∧
    Example.personGraph.wireNames (some "my") ⟨33⟩ = ["myMyName", "name", "myName"] ∧
    Example.personGraph.DistinctMembers Example.dropsMy ⟨33⟩ ∧
    ∃ u, Example.dropsMy.generateSchema ⟨Example.personGraph, [⟨33⟩]⟩ = .ok u ∧
      u.link.decode (.generated "Person") (Json.object [("myName", .string "Ann")]).render =
        .ok v ∧
      u.link.encode (.generated "Person") v =
        .error (.unexpectedValue (.scalar .int) .string) := by
  intro v
  have hload := load_personSchema
  have hcons := (Schema.built_of_load hload).consistent
  -- Persons are supported.
  have hsupported : Example.personGraph.Supported [⟨33⟩] := by
    have hcheck : Example.personGraph.checkSupported [⟨33⟩]
        [⟨33⟩, ⟨32⟩, .string, Primitive.id (.scalar .int)] = true := by cbv
    exact supported_of_checkSupported hcheck
  obtain ⟨u, hu⟩ := exists_generate hcons Example.dropsMy hsupported
  have href : Example.personGraph.codecRef ⟨33⟩ = .ok (.generated "Person") := by
    rw [codecRef_eq]
    decide +kernel
  have hcheck : Example.personGraph.checkExact
      [⟨33⟩, .string, Primitive.id (.scalar .int)] = true := by cbv
  refine ⟨hload, .root List.mem_cons_self, href,
    fun p hp => isExact_of_checkExact hcheck List.mem_cons_self hp, by cbv,
    distinctMembers_of_checkMembers (by cbv) _, u, hu, ?_, ?_⟩
  -- The text is decoded for the field of the person.
  · rw [link_person hu]
    cbv
  -- It is encoded for the field of the record, which is an integer.
  · rw [link_person hu]
    decide +kernel

end GeneratorConfig

end GraphCodec
