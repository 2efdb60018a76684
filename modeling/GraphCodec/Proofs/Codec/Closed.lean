import GraphCodec.Proofs.Codec.Decoding
import GraphCodec.Proofs.Codec.Encoding

/-!
# Closed tables

A table is closed if every name that a codec of it refers to is the name of a codec of it
(`CodecTable.Closed`).  With a closed table no name is looked up in vain: decoding never fails with
an unknown codec (`CodecTable.Closed.decodeJson_ne_unknownCodec`), and encoding only fails with one
for an object at a position without a declared type, whose type the table need not know
(`CodecTable.Closed.objectAtAny_of_unknownCodec`).
-/

namespace GraphCodec

/-! ### Codecs without parts look up nothing -/

/-- Writing a scalar looks up no codec. -/
theorem Scalar.encode_ne_unknownCodec {s : Scalar} {v : Value} {name : String} :
    s.encode v ≠ .error (.unknownCodec name) := by
  intro h
  unfold Scalar.encode at h
  -- Only the numbers that need not be finite are written with a check of their own.
  split at h
  case h_6 x => cases hx : x.finite? <;> simp [encodeFinite, hx] at h
  case h_7 x => cases hx : x.finite? <;> simp [encodeFinite, hx] at h
  all_goals simp [CodecError.mismatch] at h

/-- Writing a string looks up no codec. -/
private theorem Codec.encodeString_ne_unknownCodec {v : Value} {name : String} :
    Codec.encodeString v ≠ .error (.unknownCodec name) := by
  unfold Codec.encodeString
  split <;> simp [CodecError.mismatch]

/-- Writing a date looks up no codec. -/
private theorem Codec.encodeDate_ne_unknownCodec {v : Value} {name : String} :
    Codec.encodeDate v ≠ .error (.unknownCodec name) := by
  unfold Codec.encodeDate
  split <;> simp [CodecError.mismatch]

/-- Writing a timestamp looks up no codec. -/
private theorem Codec.encodeTimestamp_ne_unknownCodec {v : Value} {name : String} :
    Codec.encodeTimestamp v ≠ .error (.unknownCodec name) := by
  unfold Codec.encodeTimestamp
  split <;> simp [CodecError.mismatch]

/-- Writing a local date looks up no codec. -/
private theorem Codec.encodeLocalDate_ne_unknownCodec {v : Value} {name : String} :
    Codec.encodeLocalDate v ≠ .error (.unknownCodec name) := by
  unfold Codec.encodeLocalDate
  split <;> simp [CodecError.mismatch]

/-- Writing a variant of an enum looks up no codec. -/
private theorem EnumPlan.encode_ne_unknownCodec {p : EnumPlan} {v : Value} {name : String} :
    p.encode v ≠ .error (.unknownCodec name) := by
  unfold EnumPlan.encode
  split
  · split <;> simp
  · simp [CodecError.mismatch]

/-- Reading an integer looks up no codec. -/
private theorem Scalar.decodeInt_ne_unknownCodec {s : Scalar} {j : Json} {name : String} :
    s.decodeInt j ≠ .error (.unknownCodec name) := by
  unfold Scalar.decodeInt
  repeat' split
  all_goals simp [CodecError.unexpected]

/-- Reading a number that is not an integer looks up no codec. -/
private theorem Scalar.decodeBinary_ne_unknownCodec {s : Scalar} {f : BinaryFormat} {j : Json}
    {name : String} : s.decodeBinary f j ≠ .error (.unknownCodec name) := by
  unfold Scalar.decodeBinary
  repeat' split
  all_goals simp [CodecError.unexpected]

/-- Reading a boolean looks up no codec. -/
private theorem Scalar.decodeBoolean_ne_unknownCodec {j : Json} {name : String} :
    Scalar.decodeBoolean j ≠ .error (.unknownCodec name) := by
  unfold Scalar.decodeBoolean
  repeat' split
  all_goals simp [CodecError.unexpected]

/-- Reading a character looks up no codec. -/
private theorem Scalar.decodeChar_ne_unknownCodec {j : Json} {name : String} :
    Scalar.decodeChar j ≠ .error (.unknownCodec name) := by
  unfold Scalar.decodeChar
  repeat' split
  all_goals simp [CodecError.unexpected]

/-- Reading a scalar looks up no codec. -/
private theorem Scalar.decode_ne_unknownCodec {s : Scalar} {j : Json} {name : String} :
    s.decode j ≠ .error (.unknownCodec name) := by
  intro h
  unfold Scalar.decode at h
  split at h
  -- Null is read as such.
  · cases h
  -- Each kind of scalar has a reader of its own.
  · split at h <;> rw [Except.map_eq_error] at h
    · exact Scalar.decodeBoolean_ne_unknownCodec h
    · exact Scalar.decodeInt_ne_unknownCodec h
    · exact Scalar.decodeInt_ne_unknownCodec h
    · exact Scalar.decodeInt_ne_unknownCodec h
    · exact Scalar.decodeInt_ne_unknownCodec h
    · exact Scalar.decodeBinary_ne_unknownCodec h
    · exact Scalar.decodeBinary_ne_unknownCodec h
    · exact Scalar.decodeChar_ne_unknownCodec h

/-- Reading a string looks up no codec. -/
private theorem Codec.decodeString_ne_unknownCodec {j : Json} {name : String} :
    Codec.decodeString j ≠ .error (.unknownCodec name) := by
  unfold Codec.decodeString
  split <;> simp [CodecError.unexpected]

/-- Reading a date looks up no codec. -/
private theorem Codec.decodeDate_ne_unknownCodec {j : Json} {name : String} :
    Codec.decodeDate j ≠ .error (.unknownCodec name) := by
  unfold Codec.decodeDate
  repeat' split
  all_goals simp [CodecError.unexpected]

/-- Reading a timestamp looks up no codec. -/
private theorem Codec.decodeTimestamp_ne_unknownCodec {j : Json} {name : String} :
    Codec.decodeTimestamp j ≠ .error (.unknownCodec name) := by
  unfold Codec.decodeTimestamp
  repeat' split
  all_goals simp [CodecError.unexpected]

/-- Reading a local date looks up no codec. -/
private theorem Codec.decodeLocalDate_ne_unknownCodec {j : Json} {name : String} :
    Codec.decodeLocalDate j ≠ .error (.unknownCodec name) := by
  unfold Codec.decodeLocalDate
  repeat' split
  all_goals simp [CodecError.unexpected]

/-- Reading a variant of an enum looks up no codec. -/
private theorem EnumPlan.decode_ne_unknownCodec {p : EnumPlan} {j : Json} {name : String} :
    p.decode j ≠ .error (.unknownCodec name) := by
  unfold EnumPlan.decode
  repeat' split
  all_goals simp [CodecError.unexpected]

/-! ### Closed tables -/

/-- A name that is found by halving a list is in the list. -/
theorem mem_of_binarySearch {names : List String} {name : String}
    (h : binarySearch names name = true) : name ∈ names := by
  induction names using binarySearch.induct name with
  -- Nothing is in the empty list.
  | case1 =>
    rw [binarySearch] at h
    cases h
  -- A single name is compared.
  | case2 n =>
    rw [binarySearch, beq_iff_eq] at h
    exact List.mem_singleton.2 h.symm
  -- The name is looked for in the first half.
  | case3 n m rest half back hlt ih =>
    rw [binarySearch, if_pos hlt] at h
    exact List.mem_of_mem_take (ih h)
  | case4 n m rest half back hlt ih =>
    -- The name is looked for in the second half.
    rw [binarySearch, if_neg hlt] at h
    exact List.mem_of_mem_drop (ih h)

namespace CodecTable

variable {t : CodecTable} {name : String} {p q : ObjectPlan}

/-- Whether a table has all codecs that a reference speaks of. -/
def Knows (t : CodecTable) (c : CodecRef) : Prop := ∀ name ∈ c.generatedNames, t.contains name

private theorem Knows.any : t.Knows .any := fun _ hn => absurd hn List.not_mem_nil

private theorem Knows.of_sequence {shape : Shape} {element : CodecRef}
    (h : t.Knows (.sequence shape element)) : t.Knows element := h

private theorem Knows.of_textKeyMap {value : CodecRef} (h : t.Knows (.textKeyMap value)) :
    t.Knows value := h

/-- What a table knows of a map with parsed keys it knows of keys and values. -/
private theorem Knows.of_parsedKeyMap {key value : CodecRef}
    (h : t.Knows (.parsedKeyMap key value)) :
    t.Knows key ∧ t.Knows value :=
  ⟨fun n hn => h n (List.mem_append_left _ hn), fun n hn => h n (List.mem_append_right _ hn)⟩

/-- What a table knows of a map in the paired form it knows of keys and values. -/
private theorem Knows.of_pairedMap {key value : CodecRef} (h : t.Knows (.pairedMap key value)) :
    t.Knows key ∧ t.Knows value :=
  ⟨fun n hn => h n (List.mem_append_left _ hn), fun n hn => h n (List.mem_append_right _ hn)⟩

/-- A name that a table knows is that of a class or of an enum. -/
theorem Knows.exists_plan (h : t.Knows (.generated name)) :
    (∃ p, t.object? name = some p) ∨ t.object? name = none ∧ ∃ e, t.enum? name = some e := by
  have hcontains := h name (List.mem_singleton_self name)
  cases hp : t.object? name with
  | some p => exact Or.inl ⟨p, rfl⟩
  | none =>
    rw [contains, hp, Option.isSome_none, Bool.false_or] at hcontains
    exact Or.inr ⟨rfl, Option.isSome_iff_exists.1 hcontains⟩

/-- Whether every name that a codec of a table refers to is that of a codec of the table. -/
structure Closed (t : CodecTable) : Prop where
  superclass : ∀ p ∈ t.objects, ∀ name, p.superclass = some name → (t.object? name).isSome
  subtypes : ∀ p ∈ t.objects, ∀ name ∈ p.subtypes, (t.object? name).isSome
  fields : ∀ p ∈ t.objects, ∀ f ∈ p.fields, t.Knows f.encoding.codec

theorem mem_objects_of_object? (h : t.object? name = some p) : p ∈ t.objects :=
  List.mem_of_find?_eq_some h

/-- Looking up a class succeeds with the class that is found. -/
theorem object_eq_ok : t.object name = .ok p ↔ t.object? name = some p := by
  unfold object
  cases t.object? name with
  | none => simp
  | some q => simp

/-- A class whose name is known is looked up successfully. -/
theorem object_of_isSome (h : (t.object? name).isSome) : ∃ p, t.object name = .ok p := by
  obtain ⟨p, hp⟩ := Option.isSome_iff_exists.1 h
  exact ⟨p, object_eq_ok.2 hp⟩

/-- The chain of a class of a closed table is found, and made of classes of the table. -/
private theorem Closed.exists_chainWithin (ht : t.Closed) (steps : Nat) (hp : p ∈ t.objects) :
    ∃ plans, t.chainWithin steps p = .ok plans ∧ ∀ q ∈ plans, q ∈ t.objects := by
  -- The induction is on the steps that are left, for every class at once.
  induction steps generalizing p with
  | zero => exact ⟨[p], rfl, fun q hq => by rw [List.mem_singleton.1 hq]; exact hp⟩
  | succ steps ih =>
    unfold chainWithin
    cases hs : p.superclass with
    | none => exact ⟨[p], rfl, fun q hq => by rw [List.mem_singleton.1 hq]; exact hp⟩
    | some name =>
      -- The superclass of a class of a closed table is in the table, and so is its chain.
      obtain ⟨above, habove⟩ := object_of_isSome (ht.superclass p hp name hs)
      obtain ⟨plans, hplans, hmem⟩ := ih (mem_objects_of_object? (object_eq_ok.1 habove))
      refine ⟨plans ++ [p], ?_, fun q hq => ?_⟩
      · dsimp only
        rw [habove]
        show (t.chainWithin steps above >>= _) = _
        -- The chain of the class is that of its superclass and the class itself.
        rw [hplans]
        rfl
      · rcases List.mem_append.1 hq with hq | hq
        · exact hmem q hq
        · rw [List.mem_singleton.1 hq]
          exact hp

/-- The fields of a class of a closed table are found, and the table knows their codecs. -/
theorem Closed.exists_chainFields (ht : t.Closed) (hp : p ∈ t.objects) :
    ∃ fields, t.chainFields p = .ok fields ∧ ∀ f ∈ fields, t.Knows f.encoding.codec := by
  obtain ⟨plans, hplans, hmem⟩ := ht.exists_chainWithin t.objects.length hp
  refine ⟨plans.flatMap (·.fields), ?_, fun f hf => ?_⟩
  · rw [chainFields, chain, hplans]
    rfl
  · obtain ⟨q, hq, hf⟩ := List.mem_flatMap.1 hf
    exact ht.fields q (hmem q hq) f hf

/-! ### Dispatch -/

/-- The codec that writes an object of a type through the codec of its declared class. -/
def writerOf (t : CodecTable) (p : ObjectPlan) (typeName : String) :
    Except CodecError ObjectPlan :=
  if typeName ≠ p.typeName ∧ p.knowsSubtype typeName then t.object typeName else .ok p

/-- Whether the type of an object is written when it goes through the codec of its declared
class. -/
def showsType (p : ObjectPlan) (typeName : String) : Bool :=
  if typeName ≠ p.typeName ∧ p.knowsSubtype typeName then true
  else typeName = p.typeName && p.hasSubtypes

/-- An object is dispatched by finding the class that writes it, and writing it there. -/
theorem encodeDispatched_eq (p : ObjectPlan) (typeName : String)
    (field? : String → Option Encoder) :
    t.encodeDispatched p typeName field? =
      t.writerOf p typeName >>= fun q =>
        t.encodeUndispatched q (showsType p typeName) typeName field? := by
  unfold encodeDispatched writerOf showsType
  split <;> rfl

/-- The class that writes an object is found in a closed table. -/
private theorem Closed.exists_writerOf (ht : t.Closed) (hp : p ∈ t.objects) (typeName : String) :
    ∃ q, t.writerOf p typeName = .ok q ∧ q ∈ t.objects := by
  unfold writerOf
  split
  case isTrue h =>
    obtain ⟨q, hq⟩ := object_of_isSome (ht.subtypes p hp typeName (mem_of_binarySearch h.2))
    exact ⟨q, hq, mem_objects_of_object? (object_eq_ok.1 hq)⟩
  case isFalse => exact ⟨p, rfl, hp⟩

/-- An object is handed on to another type than the declared one, a known subtype of it. -/
theorem knowsSubtype_of_subtypeFor? {members : List (String × Json)}
    (h : t.subtypeFor? p members = some name) : name ≠ p.typeName ∧ p.knowsSubtype name := by
  unfold subtypeFor? at h
  split at h
  -- The object is only handed on if the class has subtypes, by its first member with a tag.
  case isTrue =>
    simp only [Option.bind_eq_bind, Option.bind_eq_some_iff] at h
    obtain ⟨_, _, tag, _, h⟩ := h
    -- The tag names a known subtype.
    split at h
    case isTrue hk =>
      cases h
      exact hk
    case isFalse => cases h
  case isFalse => cases h

/-- The class that reads an object is found in a closed table. -/
private theorem Closed.exists_codecFor (ht : t.Closed) (hp : p ∈ t.objects)
    (members : List (String × Json)) : ∃ q, t.codecFor p members = .ok q ∧ q ∈ t.objects := by
  unfold codecFor
  split
  case h_1 name h =>
    -- The subtype that is named was found among the names of the class.
    have hknows := (knowsSubtype_of_subtypeFor? h).2
    obtain ⟨q, hq⟩ := object_of_isSome (ht.subtypes p hp name (mem_of_binarySearch hknows))
    exact ⟨q, hq, mem_objects_of_object? (object_eq_ok.1 hq)⟩
  case h_2 => exact ⟨p, rfl, hp⟩

/-! ### Encoding with closed tables -/

/-- Whether a value that is written through a codec reference holds an object at a position without
a declared type, which is one of `std.Object`. -/
inductive ObjectAtAny (t : CodecTable) : CodecRef → Value → Prop where
  | object {typeName : String} {fields : List (String × Value)} :
    ObjectAtAny t .any (.object typeName fields)
  | anyItem {shape : Shape} {items : List Value} {v : Value} :
    v ∈ items → ObjectAtAny t .any v → ObjectAtAny t .any (.sequence shape items)
  | anyValue {entries : List (Value × Value)} {e : Value × Value} :
    e ∈ entries → ObjectAtAny t .any e.2 → ObjectAtAny t .any (.map entries)
  | item {shape : Shape} {element : CodecRef} {items : List Value} {v : Value} :
    v ∈ items → ObjectAtAny t element v →
      ObjectAtAny t (.sequence shape element) (.sequence shape items)
  | textKeyValue {value : CodecRef} {entries : List (Value × Value)} {e : Value × Value} :
    e ∈ entries → ObjectAtAny t value e.2 → ObjectAtAny t (.textKeyMap value) (.map entries)
  | parsedKey {key value : CodecRef} {entries : List (Value × Value)} {e : Value × Value} :
    e ∈ entries → ObjectAtAny t key e.1 → ObjectAtAny t (.parsedKeyMap key value) (.map entries)
  | parsedKeyValue {key value : CodecRef} {entries : List (Value × Value)} {e : Value × Value} :
    e ∈ entries → ObjectAtAny t value e.2 → ObjectAtAny t (.parsedKeyMap key value) (.map entries)
  | pairedKey {key value : CodecRef} {entries : List (Value × Value)} {e : Value × Value} :
    e ∈ entries → ObjectAtAny t key e.1 → ObjectAtAny t (.pairedMap key value) (.map entries)
  | pairedValue {key value : CodecRef} {entries : List (Value × Value)} {e : Value × Value} :
    e ∈ entries → ObjectAtAny t value e.2 → ObjectAtAny t (.pairedMap key value) (.map entries)
  | field {name typeName : String} {p q : ObjectPlan} {plans : List FieldPlan} {f : FieldPlan}
      {fields : List (String × Value)} {v : Value} :
    t.object? name = some p → t.writerOf p typeName = .ok q → t.chainFields q = .ok plans →
      f ∈ plans → Value.getField? fields f.name = some v → ObjectAtAny t f.encoding.codec v →
        ObjectAtAny t (.generated name) (.object typeName fields)

/-- Null is written by no codec. -/
theorem encodeNonNull_of_encodeJson {c : CodecRef} {v : Value} {e : CodecError}
    (h : t.encodeJson c v = .error e) : t.encodeNonNull v c = .error e := by
  unfold encodeJson encodeNullable at h
  split at h
  · cases h
  · exact h

/-- An entry whose key or value is refused. -/
private theorem exists_of_encodeEntries_unknownCodec {entries : List (Value × Value)}
    {key : Option CodecRef} {value : CodecRef}
    (h : t.encodeEntries entries key value = .error (.unknownCodec name)) :
    ∃ e ∈ entries, (∃ c, key = some c ∧ t.encodeNonNull e.1 c = .error (.unknownCodec name)) ∨
      t.encodeNonNull e.2 value = .error (.unknownCodec name) := by
  rw [encodeEntries_eq] at h
  obtain ⟨e, he, h⟩ := Except.exists_of_mapM_eq_error h
  refine ⟨e, he, ?_⟩
  -- The key is written first and can be refused as well as the value.
  rcases Except.bind_eq_error.1 h with h | ⟨_, _, h⟩
  · unfold encodeKey at h
    split at h
    -- A textual key is written without a codec.
    · split at h
      · cases h
      · simp [CodecError.mismatch] at h
    -- A parsed key is written by its codec, unless it is null.
    · split at h
      · simp [CodecError.mismatch] at h
      · exact Or.inl ⟨_, rfl, Except.map_eq_error.1 h⟩
  -- The value.
  · rcases Except.bind_eq_error.1 h with h | ⟨_, _, h⟩
    · exact Or.inr (encodeNonNull_of_encodeJson h)
    · cases h

/-- A field whose value is refused. -/
private theorem exists_of_encodeMembers_unknownCodec {fields : List (String × Value)}
    {plans : List FieldPlan}
    (h : encodeMembers (fun name => (t.encodeFields fields).lookup name) plans =
      .error (.unknownCodec name)) :
    ∃ f ∈ plans, ∃ v, Value.getField? fields f.name = some v ∧
      t.encodeNonNull v f.encoding.codec = .error (.unknownCodec name) := by
  rw [encodeMembers_eq, Except.map_eq_error] at h
  obtain ⟨f, hf, h⟩ := Except.exists_of_mapM_eq_error h
  unfold encodeField at h
  simp only [lookup_encodeFields] at h
  refine ⟨f, hf, ?_⟩
  -- A field that is not set is written as a zero or left out: neither looks up a codec.
  cases hv : Value.getField? fields f.name with
  | some v =>
    simp only [hv, Option.map_some] at h
    exact ⟨v, rfl, Except.map_eq_error.1 h⟩
  | none =>
    simp only [hv, Option.map_none] at h
    cases hp : f.encoding.primitive? with
    | some s =>
      simp only [hp] at h
      exact absurd (Except.map_eq_error.1 h) Scalar.encode_ne_unknownCodec
    | none =>
      simp only [hp] at h
      cases h

/-- Whether a codec that a table knows looks up a name in vain for a part of a value, where an
object at a position without a declared type in the part is one in the value. -/
def RefusesPart (t : CodecTable) (name : String) (c : CodecRef) (v : Value) : Prop :=
  ∃ w ∈ v.parts, ∃ c', t.Knows c' ∧ t.encodeNonNull w c' = .error (.unknownCodec name) ∧
    (t.ObjectAtAny c' w → t.ObjectAtAny c v)

section Parts

variable {c element key value : CodecRef} {items : List Value} {entries : List (Value × Value)}

/-- What refuses the items of a container refuses one of its parts. -/
private theorem refusesPart_of_encodeItems {shape : Shape} (hc : t.Knows element)
    (h : t.encodeItems items element = .error (.unknownCodec name))
    (hitem : ∀ w ∈ items, t.ObjectAtAny element w → t.ObjectAtAny c (.sequence shape items)) :
    t.RefusesPart name c (.sequence shape items) := by
  rw [encodeItems_eq] at h
  obtain ⟨w, hw, h⟩ := Except.exists_of_mapM_eq_error h
  exact ⟨w, hw, element, hc, encodeNonNull_of_encodeJson h, hitem w hw⟩

/-- What refuses the entries of a map refuses a key or a value. -/
private theorem refusesPart_of_encodeEntries {key : Option CodecRef}
    (hkey : ∀ k, key = some k → t.Knows k) (hvalue : t.Knows value)
    (h : t.encodeEntries entries key value = .error (.unknownCodec name))
    (hleft : ∀ e ∈ entries, ∀ k, key = some k → t.ObjectAtAny k e.1 →
      t.ObjectAtAny c (.map entries))
    (hright : ∀ e ∈ entries, t.ObjectAtAny value e.2 → t.ObjectAtAny c (.map entries)) :
    t.RefusesPart name c (.map entries) := by
  obtain ⟨e, he, ⟨k, heq, h⟩ | h⟩ := exists_of_encodeEntries_unknownCodec h
  · exact ⟨e.1, (Value.mem_parts_of_entry he).1, k, hkey k heq, h, hleft e he k heq⟩
  · exact ⟨e.2, (Value.mem_parts_of_entry he).2, value, hvalue, h, hright e he⟩

/-- The entries of a map whose keys are the names of members. -/
private theorem refusesPart_of_textEntries (hvalue : t.Knows value)
    (h : t.encodeEntries entries none value = .error (.unknownCodec name))
    (hright : ∀ e ∈ entries, t.ObjectAtAny value e.2 → t.ObjectAtAny c (.map entries)) :
    t.RefusesPart name c (.map entries) :=
  refusesPart_of_encodeEntries (fun _ heq => by cases heq) hvalue h
    (fun _ _ _ heq => by cases heq) hright

/-- What refuses a map in the paired form refuses a key or a value. -/
private theorem refusesPart_of_pairedMap (hkey : t.Knows key) (hvalue : t.Knows value)
    (h : t.encodeNonNull (.map entries) (.pairedMap key value) = .error (.unknownCodec name)) :
    t.RefusesPart name (.pairedMap key value) (.map entries) := by
  rw [encodeNonNull, encodeKeys_eq, encodeValues_eq] at h
  -- The keys are written before the values, in an array of their own.
  rcases Except.bind_eq_error.1 h with h | ⟨_, _, h⟩
  · obtain ⟨e, he, h⟩ := Except.exists_of_mapM_eq_error h
    exact ⟨e.1, (Value.mem_parts_of_entry he).1, key, hkey, encodeNonNull_of_encodeJson h,
      .pairedKey he⟩
  · rcases Except.bind_eq_error.1 h with h | ⟨_, _, h⟩
    · obtain ⟨e, he, h⟩ := Except.exists_of_mapM_eq_error h
      exact ⟨e.2, (Value.mem_parts_of_entry he).2, value, hvalue, encodeNonNull_of_encodeJson h,
        .pairedValue he⟩
    · cases h

/-- Neither the class that writes an object nor its fields are looked up in vain. -/
private theorem Closed.refusesPart_of_encodeDispatched (ht : t.Closed) {n typeName : String}
    {fields : List (String × Value)} (hp : t.object? n = some p)
    (h : t.encodeDispatched p typeName (fun name => (t.encodeFields fields).lookup name) =
      .error (.unknownCodec name)) :
    t.RefusesPart name (.generated n) (.object typeName fields) := by
  -- The class that writes the object is in the table, and so is its chain.
  obtain ⟨q, hq, hmem⟩ := ht.exists_writerOf (mem_objects_of_object? hp) typeName
  obtain ⟨plans, hplans, hknows⟩ := ht.exists_chainFields hmem
  rw [encodeDispatched_eq, hq] at h
  have h : t.encodeUndispatched q _ typeName _ = _ := h
  rw [encodeUndispatched, hplans] at h
  -- Finding the chain succeeds, so only writing a field can have failed.
  rcases Except.bind_eq_error.1 h with h | ⟨_, heq, h⟩
  · cases h
  · cases heq
    rcases Except.bind_eq_error.1 h with h | ⟨_, _, h⟩
    · obtain ⟨f, hf, w, hw, h⟩ := exists_of_encodeMembers_unknownCodec h
      exact ⟨w, Value.mem_parts_of_getField? hw, f.encoding.codec, hknows f hf, h,
        .field hp hq hplans hf hw⟩
    · cases h

/-- A name is looked up in vain at a position without a declared type for an object or for a part of
the value. -/
private theorem refusesPart_of_any {v : Value}
    (h : t.encodeNonNull v .any = .error (.unknownCodec name)) :
    t.ObjectAtAny .any v ∨ t.RefusesPart name .any v := by
  rw [encodeNonNull.eq_def] at h
  cases v with
  -- An object at such a position is what the claim is about.
  | object typeName fields => exact Or.inl .object
  | sequence shape items =>
    exact Or.inr (refusesPart_of_encodeItems .any (Except.map_eq_error.1 h)
      fun w hw => .anyItem hw)
  | map entries =>
    exact Or.inr (refusesPart_of_textEntries .any (Except.map_eq_error.1 h)
      fun e he => .anyValue he)
  -- The other values are leaves, which look up nothing.
  | null => cases h
  | string s => cases h
  | enum typeName variant => cases h
  | date d => exact absurd h Codec.encodeDate_ne_unknownCodec
  | timestamp d => exact absurd h Codec.encodeTimestamp_ne_unknownCodec
  | localDate d => exact absurd h Codec.encodeLocalDate_ne_unknownCodec
  | _ => exact absurd h Scalar.encode_ne_unknownCodec

/-- Where a closed table looks up a name in vain for a value, the value is an object at a position
without a declared type, or the table does so for a part of it. -/
private theorem Closed.refusesPart_of_unknownCodec (ht : t.Closed) {v : Value} (hc : t.Knows c)
    (h : t.encodeNonNull v c = .error (.unknownCodec name)) :
    t.ObjectAtAny c v ∨ t.RefusesPart name c v := by
  -- Only containers and classes look up codecs or hand parts on to others.
  cases c with
  -- The leaves come first.
  | scalar s =>
    rw [encodeNonNull] at h
    exact absurd h Scalar.encode_ne_unknownCodec
  | string =>
    rw [encodeNonNull] at h
    exact absurd h Codec.encodeString_ne_unknownCodec
  | date =>
    rw [encodeNonNull] at h
    exact absurd h Codec.encodeDate_ne_unknownCodec
  | timestamp =>
    rw [encodeNonNull] at h
    exact absurd h Codec.encodeTimestamp_ne_unknownCodec
  | localDate =>
    rw [encodeNonNull] at h
    exact absurd h Codec.encodeLocalDate_ne_unknownCodec
  | sequence shape element =>
    rw [encodeNonNull.eq_def] at h
    cases v with
    | sequence shape' items =>
      -- The container must be of the shape that is asked for.
      dsimp only at h
      split at h
      case isTrue hshape =>
        subst hshape
        exact Or.inr (refusesPart_of_encodeItems hc.of_sequence (Except.map_eq_error.1 h)
          fun w hw => .item hw)
      case isFalse => simp [CodecError.mismatch] at h
    | _ => simp [CodecError.mismatch] at h
  | textKeyMap value =>
    rw [encodeNonNull.eq_def] at h
    cases v with
    | map entries =>
      exact Or.inr (refusesPart_of_textEntries hc.of_textKeyMap (Except.map_eq_error.1 h)
        fun e he => .textKeyValue he)
    | _ => simp [CodecError.mismatch] at h
  | parsedKeyMap key value =>
    rw [encodeNonNull.eq_def] at h
    cases v with
    | map entries =>
      refine Or.inr (refusesPart_of_encodeEntries (fun k heq => ?_) hc.of_parsedKeyMap.2
        (Except.map_eq_error.1 h) (fun e he k heq => ?_) fun e he => .parsedKeyValue he)
      · cases heq
        exact hc.of_parsedKeyMap.1
      · cases heq
        exact .parsedKey he
    | _ => simp [CodecError.mismatch] at h
  | pairedMap key value =>
    cases v with
    | map entries =>
      exact Or.inr (refusesPart_of_pairedMap hc.of_pairedMap.1 hc.of_pairedMap.2 h)
    | _ => simp [encodeNonNull, CodecError.mismatch] at h
  | generated n =>
    -- The name itself is known, so it is a class or an enum.
    obtain ⟨p, hp⟩ | ⟨hp, e, he⟩ := hc.exists_plan
    · rw [encodeNonNull.eq_def] at h
      simp only [hp] at h
      cases v with
      | object typeName fields => exact Or.inr (ht.refusesPart_of_encodeDispatched hp h)
      | _ => simp [CodecError.mismatch] at h
    · rw [encodeNonNull_enum hp he] at h
      exact absurd h EnumPlan.encode_ne_unknownCodec
  | any => exact refusesPart_of_any h

end Parts

/-- A closed table refuses a codec that it knows only for an object at a position without a declared
type. -/
theorem Closed.objectAtAny_of_unknownCodec (ht : t.Closed) {v : Value} :
    ∀ {c : CodecRef} {name : String}, t.Knows c →
      t.encodeNonNull v c = .error (.unknownCodec name) → t.ObjectAtAny c v := by
  -- By induction on the value: a refused part lies inside the value.
  induction v using Value.induction with
  | step v ih =>
    intro c name hc h
    rcases ht.refusesPart_of_unknownCodec hc h with hobject | ⟨w, hw, c', hc', h, hinside⟩
    · exact hobject
    · exact hinside (ih w hw hc' h)

/-! ### Decoding with closed tables -/

/-- Whether some codec that a table knows looks up a name in vain for JSON below a weight. -/
def LooksUpBelow (t : CodecTable) (weight : Nat) (name : String) : Prop :=
  ∃ (c : CodecRef) (j : Json), t.Knows c ∧ j.weight < weight ∧
    t.decodeJson c j = .error (.unknownCodec name)

section Below

variable {c key value : CodecRef} {j : Json} {members : List (String × Json)}

/-- Where an item looks up a name in vain, the array does so below its own weight. -/
private theorem looksUpBelow_of_items {items : List Json} (hc : t.Knows c)
    (h : items.mapM (t.decodeJson c) = .error (.unknownCodec name)) :
    t.LooksUpBelow (Json.array items).weight name := by
  obtain ⟨k, hk, h⟩ := Except.exists_of_mapM_eq_error h
  have hle := Json.weight_le_of_mem hk
  refine ⟨c, k, hc, ?_, h⟩
  simp only [Json.weight]
  omega

/-- The value of a member weighs less than the object. -/
private theorem looksUpBelow_of_member {m : String × Json} (hc : t.Knows c) (hm : m ∈ members)
    (h : t.decodeJson c m.2 = .error (.unknownCodec name)) :
    t.LooksUpBelow (Json.object members).weight name := by
  have hlt := Json.weight_lt_of_mem (show (m.1, m.2) ∈ members from hm)
  refine ⟨c, m.2, hc, ?_, h⟩
  simp only [Json.weight]
  omega

/-- What the name of a member is read as weighs less than the object. -/
private theorem looksUpBelow_of_name {m : String × Json} (hc : t.Knows c) (hm : m ∈ members)
    (hj : j.weight ≤ m.1.length + 1) (h : t.decodeJson c j = .error (.unknownCodec name)) :
    t.LooksUpBelow (Json.object members).weight name := by
  have hlt := Json.weight_lt_of_mem (show (m.1, m.2) ∈ members from hm)
  have hpos := Json.weight_pos m.2
  refine ⟨c, j, hc, ?_, h⟩
  simp only [Json.weight]
  omega

/-- A collection looks up a name in vain for one of its entries. -/
private theorem exists_of_collect_unknownCodec {α : Type} {as : List α}
    {entry : α → Except CodecError ((Value × Value) × String)} {entries : List (Value × Value)}
    (h : collect entry as entries = .error (.unknownCodec name)) :
    ∃ a ∈ as, entry a = .error (.unknownCodec name) :=
  (collect_eq_error h).resolve_right fun ⟨_, heq⟩ => nomatch heq

/-- An entry looks up a name in vain for its key or its value. -/
private theorem bind_pair_eq_error {k v : Except CodecError Value} {text : String} {e : CodecError}
    (h : (do let k ← k; let v ← v; return ((k, v), text) :
      Except CodecError ((Value × Value) × String)) = .error e) : k = .error e ∨ v = .error e := by
  rcases Except.bind_eq_error.1 h with h | ⟨_, _, h⟩
  · exact Or.inl h
  · rcases Except.bind_eq_error.1 h with h | ⟨_, _, h⟩
    · exact Or.inr h
    · cases h

/-- Where an entry looks up a name in vain, the object does so below its own weight. -/
private theorem looksUpBelow_of_entries {key : Option CodecRef}
    (hkey : ∀ k, key = some k → t.Knows k) (hvalue : t.Knows value)
    (h : collect (t.decodeEntry key value) members [] = .error (.unknownCodec name)) :
    t.LooksUpBelow (Json.object members).weight name := by
  obtain ⟨m, hm, h⟩ := exists_of_collect_unknownCodec h
  -- The name of the member is decoded first, if the keys are parsed, then the value.
  rcases bind_pair_eq_error h with h | h
  · cases key with
    | none => cases h
    | some k => exact looksUpBelow_of_name (hkey k rfl) hm (weight_keyJson m.1) h
  · exact looksUpBelow_of_member hvalue hm h

/-- Where a map in the paired form looks up a name in vain, it does so below its own weight. -/
private theorem looksUpBelow_of_pairedMap (hkey : t.Knows key) (hvalue : t.Knows value)
    (h : t.decodeJson (.pairedMap key value) (.object members) = .error (.unknownCodec name)) :
    t.LooksUpBelow (Json.object members).weight name := by
  rw [decodeJson_pairedMap] at h
  split at h
  -- Keys and values in two arrays, which weigh no more than the members.
  case isTrue =>
    have hkeys := weight_pairedKeys members
    -- The values are looked for, which looks up nothing itself.
    rcases Except.bind_eq_error.1 h with h | ⟨values, hvalues, h⟩
    · unfold pairedValues at h
      split at h <;> simp [CodecError.unexpected] at h
    · have hvalues := weight_pairedValues hvalues
      -- Keys and values of different numbers are an error of their own.
      split at h
      case isTrue => cases h
      case isFalse =>
        -- A pair of a key and a value, each of which weighs less than the object.
        obtain ⟨pair, hpair, h⟩ := exists_of_collect_unknownCodec (Except.map_eq_error.1 h)
        have hleft := Json.weight_le_of_mem (List.of_mem_zip hpair).1
        have hright := Json.weight_le_of_mem (List.of_mem_zip hpair).2
        rcases bind_pair_eq_error h with h | h
        · refine ⟨key, pair.1, hkey, ?_, h⟩
          simp only [Json.weight]
          omega
        · refine ⟨value, pair.2, hvalue, ?_, h⟩
          simp only [Json.weight]
          omega
  -- An ordinary object, whose names are decoded as texts.
  case isFalse =>
    obtain ⟨m, hm, h⟩ := exists_of_collect_unknownCodec (Except.map_eq_error.1 h)
    rcases bind_pair_eq_error h with h | h
    · exact looksUpBelow_of_name hkey hm (by simp only [Json.weight]; omega) h
    · exact looksUpBelow_of_member hvalue hm h

/-- A class of a closed table looks up a name in vain only for the value of a member. -/
private theorem Closed.looksUpBelow_of_decodeAs (ht : t.Closed) (hp : p ∈ t.objects)
    (h : t.decodeAs p members = .error (.unknownCodec name)) :
    t.LooksUpBelow (Json.object members).weight name := by
  obtain ⟨plans, hplans, hknows⟩ := ht.exists_chainFields hp
  unfold decodeAs at h
  split at h
  -- An abstract class is not read at all.
  case isTrue => cases h
  case isFalse =>
    rw [hplans] at h
    -- Finding the chain succeeds, so only reading a field can have failed.
    rcases Except.bind_eq_error.1 h with h | ⟨_, heq, h⟩
    · cases h
    · cases heq
      rcases Except.bind_eq_error.1 h with h | ⟨_, _, h⟩
      · obtain ⟨f, hf, h⟩ := Except.exists_of_mapM_eq_error h
        -- A missing member reads as null, which looks up nothing.
        unfold readField at h
        split at h
        case h_1 => cases h
        case h_2 k hk =>
          exact looksUpBelow_of_member (hknows f hf) (Json.mem_of_member? hk)
            (Except.map_eq_error.1 h)
      · cases h

/-- Without a declared type a name is looked up in vain only for a part of the JSON value. -/
private theorem Closed.looksUpBelow_of_any (ht : t.Closed)
    (h : t.decodeJson .any j = .error (.unknownCodec name)) : t.LooksUpBelow j.weight name := by
  cases j with
  | array items =>
    rw [decodeJson_any_array] at h
    exact looksUpBelow_of_items .any (Except.map_eq_error.1 h)
  | object members =>
    -- An object whose tag names a class is read through it; the members of any other on their own.
    cases htag : t.taggedObject? members with
    | some p =>
      rw [decodeJson_any_tagged htag] at h
      simp only [taggedObject?, Option.bind_eq_bind, Option.bind_eq_some_iff] at htag
      obtain ⟨_, _, tag, _, htag⟩ := htag
      exact ht.looksUpBelow_of_decodeAs (mem_objects_of_object? htag) h
    | none =>
      rw [decodeJson_any_untagged htag] at h
      obtain ⟨m, hm, h⟩ := Except.exists_of_mapM_eq_error (Except.map_eq_error.1 h)
      exact looksUpBelow_of_member .any hm (Except.map_eq_error.1 h)
  | _ => simp [decodeJson] at h

/-- Where a closed table looks up a name in vain for a JSON value, it does so for a part of it. -/
private theorem Closed.looksUpBelow_of_unknownCodec (ht : t.Closed) (hc : t.Knows c)
    (h : t.decodeJson c j = .error (.unknownCodec name)) : t.LooksUpBelow j.weight name := by
  -- The leaves look nothing up; the other codecs hand parts of the JSON value on.
  cases c with
  | scalar s =>
    rw [decodeJson] at h
    exact absurd h Scalar.decode_ne_unknownCodec
  | string =>
    rw [decodeJson] at h
    exact absurd h Codec.decodeString_ne_unknownCodec
  | date =>
    rw [decodeJson] at h
    exact absurd h Codec.decodeDate_ne_unknownCodec
  | timestamp =>
    rw [decodeJson] at h
    exact absurd h Codec.decodeTimestamp_ne_unknownCodec
  | localDate =>
    rw [decodeJson] at h
    exact absurd h Codec.decodeLocalDate_ne_unknownCodec
  | sequence shape element =>
    cases j with
    | array items =>
      rw [decodeJson_sequence] at h
      exact looksUpBelow_of_items hc.of_sequence (Except.map_eq_error.1 h)
    | _ => simp [decodeJson, CodecError.unexpected] at h
  | textKeyMap value =>
    cases j with
    | object members =>
      rw [decodeJson_textKeyMap] at h
      exact looksUpBelow_of_entries (fun _ heq => by cases heq) hc.of_textKeyMap
        (Except.map_eq_error.1 h)
    | _ => simp [decodeJson, CodecError.unexpected] at h
  | parsedKeyMap key value =>
    cases j with
    | object members =>
      rw [decodeJson_parsedKeyMap] at h
      exact looksUpBelow_of_entries (fun _ heq => Option.some.inj heq ▸ hc.of_parsedKeyMap.1)
        hc.of_parsedKeyMap.2 (Except.map_eq_error.1 h)
    | _ => simp [decodeJson, CodecError.unexpected] at h
  | pairedMap key value =>
    cases j with
    | object members => exact looksUpBelow_of_pairedMap hc.of_pairedMap.1 hc.of_pairedMap.2 h
    | _ => simp [decodeJson, CodecError.unexpected] at h
  | generated n =>
    -- The name itself is known, so it is a class or an enum.
    obtain ⟨p, hp⟩ | ⟨hp, e, he⟩ := hc.exists_plan
    · cases j with
      | object members =>
        obtain ⟨q, hq, hmem⟩ := ht.exists_codecFor (mem_objects_of_object? hp) members
        rw [decodeJson_generated hp, hq] at h
        exact ht.looksUpBelow_of_decodeAs hmem h
      | _ => simp [decodeJson, hp, CodecError.unexpected] at h
    · simp only [decodeJson, hp, he] at h
      exact absurd h EnumPlan.decode_ne_unknownCodec
  | any => exact ht.looksUpBelow_of_any h

end Below

/-- A closed table decodes whatever it knows the codec of without looking up a codec in vain. -/
theorem Closed.decodeJson_ne_unknownCodec (ht : t.Closed) {c : CodecRef} {j : Json}
    (hc : t.Knows c) : t.decodeJson c j ≠ .error (.unknownCodec name) := by
  -- The induction is on the weight, since the name of a member can be read as a value.
  induction hn : j.weight using Nat.strongRecOn generalizing j c with
  | ind n ih =>
    intro h
    obtain ⟨c', k, hc', hlt, h⟩ := ht.looksUpBelow_of_unknownCodec hc h
    exact ih k.weight (hn ▸ hlt) hc' rfl h

end CodecTable

end GraphCodec
