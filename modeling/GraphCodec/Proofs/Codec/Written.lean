import Mathlib
import GraphCodec.Codec.PlanFormat
import GraphCodec.Proofs.Json.Lossless
import GraphCodec.Proofs.Json.Reading

/-!
# Written plans read back

The written form of a codec reference or of a plan is read as that reference or plan
(`CodecRef.reads_toJson`, `CodecPlan.reads_toJson`): the only thing that can go wrong is that the
reader has no room for the levels of nesting.  For plans whose codecs nest at most 122 levels it
always has (`CodecPlan.depth_listJson_le`).
-/

namespace GraphCodec

open Json

namespace CodecRef

/-! ### References -/

/-- A sort of codec that needs nothing else. -/
private theorem reads_plain {c : CodecRef} {title name : String}
    (h : form.variants.lookup name = some (.plain c title)) :
    Reads read (.object [("codec", .string name)]) c := fun o => by
  rw [toDraft, read, depth]
  refine Origin.enter_bind fun inner => ?_
  have hlocate : form.locate inner (toDraftMembers [("codec", .string name)]) none =
      .ok ⟨.plain c title, none, []⟩ := AdjacentForm.locate_tag h
  -- The reader asks what was found; every other answer contradicts the one just computed.
  split <;> rename_i hfound <;> rw [hlocate] at hfound <;> cases hfound
  · exact Origin.within_zero.symm
  · rename_i hplain
    exact (hplain c title rfl).elim

/-- A sort of codec with what it needs. -/
private theorem reads_content (family : Family) {name : String} {j : Json} {c : CodecRef}
    (h : form.variants.lookup name = some family) (hcontent : Reads (readContent family) j c) :
    Reads read (.object [("codec", .string name), ("of", j)]) c := fun o => by
  rw [toDraft, read, depth]
  refine Origin.enter_bind fun inner => ?_
  -- The tag comes first and names the sort, so the member behind it is the content.
  have hlocate : form.locate inner (toDraftMembers [("codec", .string name), ("of", j)]) none =
      .ok ⟨family, some (j.toDraft, inner), []⟩ := AdjacentForm.locate_content h (by decide)
  -- The content is one level below the object.
  have hdepth : depthMembers [("codec", .string name), ("of", j)] = j.depth := by
    simp only [depthMembers, depth, Nat.max_zero, Nat.zero_max]
  split <;> rename_i hfound <;> rw [hlocate] at hfound <;> cases hfound
  rw [hcontent inner, hdepth]
  exact Origin.within_bind_ok rfl

/-- A kind of scalar is named in one way. -/
theorem lookup_scalarVariants (s : Scalar) : scalarVariants.lookup s.name = some s := by
  cases s <;> decide

/-- An object in the place of a key is read as a codec. -/
private theorem readKey_object (paired : Bool) (o : Origin) (members : List Draft.Member)
    (stop : Option Fault) :
    readKey paired o (.object members stop) = (read o (.object members stop)).map some := by
  rw [readKey]
  intro _ h
  cases h

/-- The written form of a reference is an object. -/
private theorem exists_toJson_eq (c : CodecRef) : ∃ members, c.toJson = .object members := by
  cases c <;> exact ⟨_, rfl⟩

/-- The codec of the keys of a map, when there is one. -/
private theorem reads_key {c : CodecRef} (h : Reads read c.toJson c) (paired : Bool) :
    Reads (readKey paired) c.toJson (some c) := fun o => by
  obtain ⟨members, hmembers⟩ := c.exists_toJson_eq
  have hread := h o
  rw [hmembers, toDraft] at hread ⊢
  rw [readKey_object, hread, Origin.map_within]

/-- The member for the keys is read where it comes. -/
private theorem readMapMembers_key (paired : Bool) (o : Origin) (value : Option CodecRef)
    (d : Draft) (rest : List Draft.Member) (stop : Option Fault) :
    readMapMembers paired o none value ((.ok "key", d) :: rest) stop =
      readKey paired o d >>= fun key => readMapMembers paired o (some key) value rest stop := by
  rw [readMapMembers]
  rfl

/-- The member for the values is read where it comes. -/
private theorem readMapMembers_value (paired : Bool) (o : Origin) (key : Option (Option CodecRef))
    (d : Draft) (rest : List Draft.Member) (stop : Option Fault) :
    readMapMembers paired o key none ((.ok "value", d) :: rest) stop =
      read o d >>= fun value => readMapMembers paired o key (some value) rest stop := by
  rw [readMapMembers]
  rfl

/-- When both have been read, the map is put together. -/
private theorem readMapMembers_nil (paired : Bool) (o : Origin) (key : Option CodecRef)
    (value : CodecRef) :
    readMapMembers paired o (some key) (some value) [] none = .ok (mapRef paired key value) := by
  rw [readMapMembers]
  cases paired <;> rfl

/-- The codecs of the keys and values of a map. -/
private theorem reads_map {paired : Bool} {kj vj : Json} {key : Option CodecRef} {value : CodecRef}
    (hkey : Reads (readKey paired) kj key) (hvalue : Reads read vj value) :
    Reads (readMap paired) (.object [("key", kj), ("value", vj)]) (mapRef paired key value) :=
  fun o => by
    rw [toDraft, readMap, depth]
    refine Origin.enter_bind fun inner => ?_
    -- One level further down the key is read first, then the value.
    simp only [toDraftMembers, depthMembers, Nat.max_zero]
    rw [readMapMembers_key, hkey inner]
    refine Origin.within_bind ?_
    rw [readMapMembers_value, hvalue inner]
    exact Origin.within_bind_ok (readMapMembers_nil paired inner key value)

/-- A written reference is read as the reference. -/
theorem reads_toJson (c : CodecRef) : Reads read c.toJson c := by
  induction c with
  | scalar s =>
    -- Each sort reads its own content, by induction where that is a codec again.
    refine reads_content .scalar rfl fun o => ?_
    rw [readContent]
    exact (Reads.variant (lookup_scalarVariants s)).map CodecRef.scalar o
  | string => exact reads_plain rfl
  | date => exact reads_plain rfl
  | timestamp => exact reads_plain rfl
  | localDate => exact reads_plain rfl
  | any => exact reads_plain rfl
  | generated name =>
    refine reads_content .generated rfl fun o => ?_
    rw [readContent]
    exact (Reads.string name).map CodecRef.generated o
  | sequence shape element ih =>
    -- The three shapes of sequences are variants of their own.
    have hname : form.variants.lookup shape.name = some (.sequence shape) := by cases shape <;> rfl
    refine reads_content _ hname fun o => ?_
    rw [readContent]
    exact ih.map (CodecRef.sequence shape) o
  | textKeyMap value ih =>
    refine reads_content .memberMap rfl fun o => ?_
    rw [readContent]
    -- A map without a codec for its keys says so by null.
    have hkey : Reads (readKey false) .null none := fun o => by
      rw [toDraft, readKey, depth, Origin.within_zero]
    exact reads_map hkey ih o
  -- The two forms of maps with a codec for their keys differ in their names only.
  | parsedKeyMap key value ihkey ihvalue =>
    refine reads_content .memberMap rfl fun o => ?_
    rw [readContent]
    exact reads_map (reads_key ihkey false) ihvalue o
  | pairedMap key value ihkey ihvalue =>
    refine reads_content .arrayMap rfl fun o => ?_
    rw [readContent]
    exact reads_map (reads_key ihkey true) ihvalue o

/-- How deep the written form of a reference is nested: one level, one more for a sequence around
it and two more for a map. -/
def levels : CodecRef → Nat
  | scalar _ | string | date | timestamp | localDate | any | generated _ => 1
  | sequence _ element => element.levels + 1
  | textKeyMap value => value.levels + 2
  | parsedKeyMap key value | pairedMap key value => max key.levels value.levels + 2

private theorem depth_toJson (c : CodecRef) : c.toJson.depth = c.levels := by
  induction c <;> simp [toJson, depth, depthMembers, levels, *]

/-- A written reference holds texts and nulls and no numbers. -/
theorem isExact_toJson (c : CodecRef) : c.toJson.IsExact := by
  -- The two shapes of objects that references are written as.
  have hone : ∀ {name j}, IsExact j → IsExact (.object [("codec", .string name), ("of", j)]) :=
    fun h => .members_cons (.string _) (.members_cons h .members_nil)
  have hmap : ∀ {k v}, IsExact k → IsExact v → IsExact (.object [("key", k), ("value", v)]) :=
    fun hk hv => .members_cons hk (.members_cons hv .members_nil)
  induction c with
  | string | date | timestamp | localDate | any => exact .members_cons (.string _) .members_nil
  | scalar | generated => exact hone (.string _)
  | sequence _ _ ih => exact hone ih
  | textKeyMap _ ih => exact hone (hmap .null ih)
  | parsedKeyMap _ _ ihkey ihvalue | pairedMap _ _ ihkey ihvalue => exact hone (hmap ihkey ihvalue)

end CodecRef

/-! ### Encodings of fields -/

namespace FieldEncoding

/-- A sort of encoding with what it needs. -/
private theorem reads_content (family : Family) {name : String} {j : Json} {e : FieldEncoding}
    (h : form.variants.lookup name = some family) (hcontent : Reads (readContent family) j e) :
    Reads read (.object [("encoding", .string name), ("of", j)]) e := fun o => by
  rw [toDraft, read, depth]
  refine Origin.enter_bind fun inner => ?_
  have hlocate : form.locate inner (toDraftMembers [("encoding", .string name), ("of", j)]) none =
      .ok ⟨family, some (j.toDraft, inner), []⟩ := AdjacentForm.locate_content h (by decide)
  have hdepth : depthMembers [("encoding", .string name), ("of", j)] = j.depth := by
    simp only [depthMembers, depth, Nat.max_zero, Nat.zero_max]
  rw [hlocate, hdepth]
  -- Whatever the family, its own arm of the reader hands the content on to `readContent`.
  refine Eq.trans (b := readContent family inner j.toDraft >>= .ok) ?_ ?_
  · cases family <;> rfl
  · rw [hcontent inner]
    exact Origin.within_bind_ok rfl

/-- A written encoding is read as the encoding. -/
theorem reads_toJson (e : FieldEncoding) : Reads read e.toJson e := by
  cases e with
  | primitive s =>
    -- A kind of scalar is named by its variant.
    have hread := (Reads.variant (CodecRef.lookup_scalarVariants s)).map FieldEncoding.primitive
    exact reads_content .primitive rfl hread
  | boxed s =>
    have hread := (Reads.variant (CodecRef.lookup_scalarVariants s)).map FieldEncoding.boxed
    exact reads_content .boxed rfl hread
  -- A string has a tag and nothing behind it.
  | string =>
    intro o
    rw [toJson, toDraft, read, depth]
    refine Origin.enter_bind fun inner => ?_
    have hlocate : form.locate inner (toDraftMembers [("encoding", .string "str")]) none =
        .ok ⟨.string, none, []⟩ := AdjacentForm.locate_tag rfl
    rw [hlocate]
    exact Origin.within_zero.symm
  | nested c =>
    exact reads_content .nested rfl (c.reads_toJson.map FieldEncoding.nested)

private theorem depth_toJson (e : FieldEncoding) : e.toJson.depth ≤ e.codec.levels + 1 := by
  cases e <;> simp [toJson, codec, depth, depthMembers, CodecRef.levels, CodecRef.depth_toJson]

/-- A written encoding holds texts and nulls and no numbers. -/
private theorem isExact_toJson (e : FieldEncoding) : e.toJson.IsExact := by
  cases e with
  | string => exact .members_cons (.string _) .members_nil
  | primitive | boxed => exact .members_cons (.string _) (.members_cons (.string _) .members_nil)
  | nested c => exact .members_cons (.string _) (.members_cons c.isExact_toJson .members_nil)

end FieldEncoding

/-! ### Plans of fields, classes and enums -/

namespace FieldPlan

/-- A written field plan is read as the field plan. -/
theorem reads_toJson (f : FieldPlan) : Reads form.read f.toJson f := by
  obtain ⟨name, wireName, isPrivate, encoding⟩ := f
  -- Each member fills its own slot, and the mark is written only when it is set.
  have hname : form.Takes form.empty [("name", .string name)] ⟨some name, none, none, none⟩ :=
    .leaf rfl rfl fun _ => rfl
  have hwireName : form.Takes ⟨some name, none, none, none⟩ [("wire_name", .string wireName)]
      ⟨some name, some wireName, none, none⟩ := .leaf rfl rfl fun _ => rfl
  have hprivate : form.Takes ⟨some name, some wireName, none, none⟩
      (if isPrivate then [("private", .bool true)] else [])
      ⟨some name, some wireName, if isPrivate then some true else none, none⟩ := by
    cases isPrivate with
    | false => exact .nil
    | true => exact .leaf rfl rfl fun _ => rfl
  have hencoding : ∀ isPrivate, form.Takes ⟨some name, some wireName, isPrivate, none⟩
      [("encoding", encoding.toJson)] ⟨some name, some wireName, isPrivate, some encoding⟩ := by
    refine fun isPrivate => .member rfl fun o => ?_
    show (fill none "encoding" (FieldEncoding.read o encoding.toJson.toDraft) >>= _) = _
    rw [encoding.reads_toJson o, fill_none]
    exact Origin.within_bind_ok rfl
  -- No slot is left open, so the plan can be put together.
  refine (((hname.append hwireName).append hprivate).append (hencoding _)).reads ?_
  cases isPrivate <;> rfl

/-- A written field plan holds no numbers. -/
private theorem isExact_toJson (f : FieldPlan) : f.toJson.IsExact := by
  obtain ⟨name, wireName, isPrivate, encoding⟩ := f
  have hencoding : IsExact (.object [("encoding", encoding.toJson)]) :=
    .members_cons encoding.isExact_toJson .members_nil
  -- The mark of a private field is a boolean.
  cases isPrivate with
  | false => exact .members_cons (.string _) (.members_cons (.string _) hencoding)
  | true =>
    exact .members_cons (.string _) (.members_cons (.string _) (.members_cons (.bool _) hencoding))

/-- A written field plan is one level deeper than its encoding. -/
private theorem depth_toJson (f : FieldPlan) : f.toJson.depth = f.encoding.toJson.depth + 1 := by
  obtain ⟨name, wireName, isPrivate, encoding⟩ := f
  cases isPrivate <;> simp [toJson, depth, depthMembers]

end FieldPlan

/-- Names are written in one level. -/
private theorem depth_namesJson_le (names : List String) : (namesJson names).depth ≤ 1 :=
  Nat.succ_le_succ (depthItems_le_iff.2 fun j hj => by
    obtain ⟨name, -, rfl⟩ := List.mem_map.1 hj
    exact Nat.le_refl 0)

/-- Written names hold no numbers. -/
private theorem isExact_namesJson (names : List String) : (namesJson names).IsExact :=
  .array fun j hj => by
    obtain ⟨name, -, rfl⟩ := List.mem_map.1 hj
    exact .string name

/-- The member that holds a list of names. -/
theorem readStrings_namesJson (o : Origin) (names : List String) :
    (namesJson names).toDraft.readStrings o = o.within (namesJson names).depth names :=
  Reads.strings names o

namespace ObjectPlan

/-- The members of a written class plan are read as the class plan. -/
private theorem ofMembers_toMembers (p : ObjectPlan) (o : Origin) :
    form.ofMembers o (toDraftMembers p.toMembers) none = o.within (depthMembers p.toMembers) p := by
  obtain ⟨typeName, isAbstract, superclass, subtypes, fields⟩ := p
  -- Each member fills its own slot; a slot that stays empty is finished as what was not written.
  have htypeName : form.Takes form.empty [("type_name", .string typeName)]
      ⟨some typeName, none, none, none, none⟩ := .leaf rfl rfl fun _ => rfl
  have hisAbstract : form.Takes ⟨some typeName, none, none, none, none⟩
      [("is_abstract", .bool isAbstract)] ⟨some typeName, some isAbstract, none, none, none⟩ :=
    .leaf rfl rfl fun _ => rfl
  have hsuperclass : form.Takes ⟨some typeName, some isAbstract, none, none, none⟩
      (superclass.elim [] fun name => [("superclass", .string name)])
      ⟨some typeName, some isAbstract, superclass.map some, none, none⟩ := by
    cases superclass with
    | none => exact .nil
    | some name => exact .leaf rfl rfl fun _ => rfl
  have hsubtypes : ∀ superclass, form.Takes ⟨some typeName, some isAbstract, superclass, none, none⟩
      (if subtypes.isEmpty then [] else [("subtypes", namesJson subtypes)])
      ⟨some typeName, some isAbstract, superclass,
        if subtypes.isEmpty then none else some subtypes, none⟩ := by
    intro superclass
    cases hempty : subtypes.isEmpty with
    | true => exact .nil
    | false =>
      refine .member rfl fun o => ?_
      show (fill none "subtypes" ((namesJson subtypes).toDraft.readStrings o) >>= _) = _
      rw [readStrings_namesJson, fill_none]
      exact Origin.within_bind_ok rfl
  have hfields : ∀ superclass subtypes,
      form.Takes ⟨some typeName, some isAbstract, superclass, subtypes, none⟩
        [("fields", .array (fields.map FieldPlan.toJson))]
        ⟨some typeName, some isAbstract, superclass, subtypes, some fields⟩ := by
    refine fun superclass subtypes => .member rfl fun o => ?_
    have hread : Draft.readList o FieldPlan.form.read
        (Json.array (fields.map FieldPlan.toJson)).toDraft = o.within _ fields :=
      Reads.list (fun f _ => f.reads_toJson) o
    show (fill none "fields" (Draft.readList o FieldPlan.form.read _) >>= _) = _
    rw [hread, fill_none]
    exact Origin.within_bind_ok rfl
  -- The five parts stand behind each other in this order.
  have hmembers := ((((htypeName.append hisAbstract).append hsuperclass).append
    (hsubtypes _)).append (hfields _ _))
  cases superclass <;> cases subtypes <;> exact hmembers.ofMembers rfl o

/-- The members of a written class plan hold no numbers. -/
private theorem isExact_toMembers (p : ObjectPlan) : IsExact (.object p.toMembers) := by
  obtain ⟨typeName, isAbstract, superclass, subtypes, fields⟩ := p
  have hfields : IsExact (.object [("fields", .array (fields.map FieldPlan.toJson))]) := by
    refine .members_cons (.array fun j hj => ?_) .members_nil
    obtain ⟨f, -, rfl⟩ := List.mem_map.1 hj
    exact f.isExact_toJson
  -- A list of subtypes is left out if it is empty.
  have hsubtypes : IsExact (.object ((if subtypes.isEmpty then []
      else [("subtypes", namesJson subtypes)]) ++
        [("fields", .array (fields.map FieldPlan.toJson))])) := by
    cases subtypes with
    | nil => exact hfields
    | cons first others => exact .members_cons (isExact_namesJson _) hfields
  cases superclass with
  | none => exact .members_cons (.string _) (.members_cons (.bool _) hsubtypes)
  | some name =>
    exact .members_cons (.string _) (.members_cons (.bool _) (.members_cons (.string _) hsubtypes))

/-- A class plan is written within three levels around the codecs of its fields. -/
private theorem depthMembers_toMembers_le {p : ObjectPlan} {n : Nat}
    (h : ∀ f ∈ p.fields, f.encoding.codec.levels ≤ n) : depthMembers p.toMembers ≤ n + 3 := by
  obtain ⟨typeName, isAbstract, superclass, subtypes, fields⟩ := p
  -- The fields are one level further down than the plan.
  have hfields : depthItems (fields.map FieldPlan.toJson) ≤ n + 2 := by
    refine depthItems_le_iff.2 fun j hj => ?_
    obtain ⟨f, hf, rfl⟩ := List.mem_map.1 hj
    have hlevels := h f hf
    have hencoding := f.encoding.depth_toJson
    rw [f.depth_toJson]
    omega
  have hsubtypes := depth_namesJson_le subtypes
  cases superclass <;> cases subtypes <;> simp [toMembers, depthMembers, depth] <;> omega

end ObjectPlan

namespace EnumPlan

/-- The members of a written enum plan are read as the enum plan. -/
private theorem ofMembers_toMembers (p : EnumPlan) (o : Origin) :
    form.ofMembers o (toDraftMembers p.toMembers) none = o.within (depthMembers p.toMembers) p := by
  obtain ⟨typeName, variants⟩ := p
  -- Both members are always written.
  have hname : form.Takes form.empty [("type_name", .string typeName)] ⟨some typeName, none⟩ :=
    .leaf rfl rfl fun _ => rfl
  have hvariants : form.Takes ⟨some typeName, none⟩ [("variants", namesJson variants)]
      ⟨some typeName, some variants⟩ := by
    refine .member rfl fun o => ?_
    show (fill none "variants" ((namesJson variants).toDraft.readStrings o) >>= _) = _
    rw [readStrings_namesJson, fill_none]
    exact Origin.within_bind_ok rfl
  exact (hname.append hvariants).ofMembers rfl o

private theorem isExact_toMembers (p : EnumPlan) : IsExact (.object p.toMembers) :=
  .members_cons (.string _) (.members_cons (isExact_namesJson _) .members_nil)

end EnumPlan

namespace CodecPlan

/-- No member of a class plan has the name of the tag. -/
private theorem kind_not_mem_object (p : ObjectPlan) : "kind" ∉ p.toMembers.map (·.1) := by
  obtain ⟨typeName, isAbstract, superclass, subtypes, fields⟩ := p
  cases superclass <;> cases subtypes <;> simp [ObjectPlan.toMembers]

/-- A written plan is read as the plan. -/
theorem reads_toJson (p : CodecPlan) : Reads read p.toJson p := fun o => by
  cases p with
  | object p =>
    rw [toJson, read, readTagged_object rfl (kind_not_mem_object p)]
    refine Origin.within_bind_ok ?_
    -- What is held behind the tag has been settled already, so here no bound is left to meet.
    show (ObjectPlan.form.ofMembers .held (toDraftMembers p.toMembers) none).map
      CodecPlan.object = _
    rw [p.ofMembers_toMembers, Origin.held_within]
    rfl
  | enum p =>
    have hkind : "kind" ∉ p.toMembers.map (·.1) := by simp [EnumPlan.toMembers]
    rw [toJson, read, readTagged_object rfl hkind]
    refine Origin.within_bind_ok ?_
    show (EnumPlan.form.ofMembers .held (toDraftMembers p.toMembers) none).map CodecPlan.enum = _
    rw [p.ofMembers_toMembers, Origin.held_within]
    rfl

/-- A written plan holds no numbers. -/
private theorem isExact_toJson (p : CodecPlan) : p.toJson.IsExact := by
  cases p with
  | object p => exact .members_cons (.string _) p.isExact_toMembers
  | enum p => exact .members_cons (.string _) p.isExact_toMembers

/-- The written form of a list of plans. -/
def listJson (plans : List CodecPlan) : Json := .array (plans.map toJson)

/-- Written plans hold no numbers. -/
private theorem isExact_listJson (plans : List CodecPlan) : (listJson plans).IsExact :=
  .array fun j hj => by
    obtain ⟨p, -, rfl⟩ := List.mem_map.1 hj
    exact p.isExact_toJson

/-- Plans stay within the bound of the reader of a text if the codecs of their fields leave room for
the five levels around each of them. -/
theorem depth_listJson_le {plans : List CodecPlan}
    (h : ∀ p, object p ∈ plans → ∀ f ∈ p.fields, f.encoding.codec.levels ≤ 122) :
    (listJson plans).depth ≤ 127 := by
  refine Nat.succ_le_succ (depthItems_le_iff.2 fun j hj => ?_)
  obtain ⟨p, hp, rfl⟩ := List.mem_map.1 hj
  -- The fields of a class decide how deep it is; an enum has one level of names.
  cases p with
  | object p =>
    have hmembers := p.depthMembers_toMembers_le (h p hp)
    exact Nat.succ_le_succ (Nat.max_le.2 ⟨Nat.zero_le _, hmembers⟩)
  | enum p =>
    have hvariants := depth_namesJson_le p.variants
    simp only [toJson, EnumPlan.toMembers, depth, depthMembers]
    omega

end CodecPlan

/-! ### Texts -/

/-- A text that is scanned as a value is read, within any bound on nesting, as what the value is
read as. -/
private theorem read_scan {α : Type} {reader : Origin → Draft → Reading α} {text : String}
    {j : Json}
    {a : α} (hscan : Document.scan text = ⟨j.toDraft, false⟩) (h : Reads reader j a) (room : Room) :
    (Document.scan text).read (reader (.text room)) .malformed =
      room.within (.malformed .recursionLimit) j.depth a := by
  -- The document is read as the draft of the value, with no fault behind it.
  rw [hscan]
  show (reader (.text room) j.toDraft >>= .ok) = _
  rw [h]
  exact Origin.within_bind_ok rfl

/-- A bounded reader has room for 127 levels. -/
private theorem within_bounded {α : Type} (limit : ReadError) (levels : Nat) (a : α) :
    Room.bounded.within limit levels a = if levels ≤ 127 then .ok a else .error limit :=
  if_congr (by simp [Room.bounded, Room.Admits]) rfl rfl

/-- What is written for plans and references is read back: the plans from the text on lines of its
own and from the text without blanks, if nesting stays within the 127 levels that the reader of a
text has room for, and otherwise the text is refused for its nesting and nothing else.  A reader
without a bound reads every reference back. -/
theorem read_written (plans : List CodecPlan) (c : CodecRef) :
    (∀ text ∈ [CodecPlan.listText plans, (CodecPlan.listJson plans).render],
      CodecPlan.listOfText text =
        if (CodecPlan.listJson plans).depth ≤ 127 then .ok plans
        else .error (.malformed .recursionLimit)) ∧
    (CodecRef.ofText c.toJson.render =
      if c.toJson.depth ≤ 127 then .ok c else .error (.malformed .recursionLimit)) ∧
    (Document.scan c.toJson.render).read (CodecRef.read (.text none)) .malformed = .ok c := by
  have hplans : Reads (fun o d => d.readList o CodecPlan.read) (CodecPlan.listJson plans) plans :=
    Reads.list fun p _ => p.reads_toJson
  have hexact := CodecPlan.isExact_listJson plans
  refine ⟨fun text htext => ?_, ?_, ?_⟩
  -- A list of plans is written on lines or without blanks, and scanned alike.
  · have hscan : Document.scan text = ⟨(CodecPlan.listJson plans).toDraft, false⟩ := by
      rcases List.mem_pair.1 htext with rfl | rfl
      · exact hexact.scan_renderPretty
      · exact hexact.scan_render
    rw [← within_bounded]
    exact read_scan hscan hplans Room.bounded
  -- A reference is read with a bound and without one.
  · rw [← within_bounded]
    exact read_scan c.isExact_toJson.scan_render c.reads_toJson Room.bounded
  · rw [read_scan c.isExact_toJson.scan_render c.reads_toJson none, Room.within_none]

end GraphCodec
