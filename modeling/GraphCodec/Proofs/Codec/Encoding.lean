import GraphCodec.Codec.Tree
import GraphCodec.Proofs.Except
import GraphCodec.Proofs.Json.NumberRange
import GraphCodec.Proofs.Json.RoundTrip
import GraphCodec.Proofs.Values

/-!
# What encoding yields

The parts of a value are encoded one by one: `encodeItems`, `encodeEntries` and their like are
traversals of `encodeJson`, and the codecs of the fields of an object are found by name.

Whatever is encoded, the tree that comes out is readable (`readable_encodeNonNull`): its text is one
JSON document, because integers are written as numbers only where they have at most 32 bits and
every finite number is in range.
-/

namespace GraphCodec

namespace CodecTable

variable {t : CodecTable}

/-! ### Traversals -/

-- The equations take a while to derive; this does it once, before the proofs that need them.
attribute [local simp] encodeNonNull encodeItems encodeKeys encodeValues encodeEntries encodeFields

/-- Items are encoded one by one. -/
theorem encodeItems_eq (items : List Value) (c : CodecRef) :
    t.encodeItems items c = items.mapM (t.encodeJson c) := by
  induction items with
  | nil =>
    rw [encodeItems]
    rfl
  | cons v rest ih =>
    rw [encodeItems, List.mapM_cons, ih, encodeJson]

/-- The keys of a map are encoded one by one. -/
theorem encodeKeys_eq (entries : List (Value × Value)) (c : CodecRef) :
    t.encodeKeys entries c = entries.mapM fun e => t.encodeJson c e.1 := by
  induction entries with
  | nil =>
    rw [encodeKeys]
    rfl
  | cons e rest ih =>
    obtain ⟨k, v⟩ := e
    rw [encodeKeys, List.mapM_cons, ih, encodeJson]

/-- The values of a map are encoded one by one. -/
theorem encodeValues_eq (entries : List (Value × Value)) (c : CodecRef) :
    t.encodeValues entries c = entries.mapM fun e => t.encodeJson c e.2 := by
  induction entries with
  | nil =>
    rw [encodeValues]
    rfl
  | cons e rest ih =>
    obtain ⟨k, v⟩ := e
    rw [encodeValues, List.mapM_cons, ih, encodeJson]

/-- The member for an entry of a map. -/
def encodeEntry (t : CodecTable) (key : Option CodecRef) (value : CodecRef) (e : Value × Value) :
    Except CodecError (String × Json) := do
  let name ← encodeKey e.1 (t.encodeNonNull e.1) key
  let j ← t.encodeJson value e.2
  return (name, j)

/-- The entries of a map are encoded one by one, key before value. -/
theorem encodeEntries_eq (entries : List (Value × Value)) (key : Option CodecRef)
    (value : CodecRef) :
    t.encodeEntries entries key value = entries.mapM (t.encodeEntry key value) := by
  induction entries with
  | nil =>
    rw [encodeEntries]
    rfl
  | cons e rest ih =>
    obtain ⟨k, v⟩ := e
    rw [encodeEntries, List.mapM_cons, ih, encodeEntry, encodeJson]
    -- The name comes first and fails first.
    cases encodeKey k (t.encodeNonNull k) key with
    | error e => rfl
    | ok name =>
      cases encodeNullable v (t.encodeNonNull v) value with
      | error e => rfl
      | ok j => rfl

/-- The encoders of an object are those of the values of its fields. -/
private theorem encodeFields_eq (fields : List (String × Value)) :
    t.encodeFields fields = fields.map fun f => (f.1, t.encodeNonNull f.2) := by
  induction fields with
  | nil => rw [encodeFields, List.map_nil]
  | cons f rest ih =>
    obtain ⟨name, v⟩ := f
    rw [encodeFields, ih, List.map_cons]

/-- The codec of a field encodes the value of the field. -/
theorem lookup_encodeFields (fields : List (String × Value)) (name : String) :
    (t.encodeFields fields).lookup name = (Value.getField? fields name).map t.encodeNonNull := by
  rw [encodeFields_eq, Value.getField?]
  induction fields with
  | nil => rfl
  | cons f rest ih =>
    obtain ⟨n, v⟩ := f
    simp only [List.map_cons, List.lookup_cons]
    -- The first field has the name, or it is looked for in the rest.
    cases name == n with
    | true => rfl
    | false => exact ih

/-- Fields are encoded one by one, and those that are left out give no member. -/
theorem encodeMembers_eq (field? : String → Option Encoder) (fields : List FieldPlan) :
    encodeMembers field? fields =
      (fields.mapM (encodeField field?)).map fun ms => ms.flatMap Option.toList := by
  induction fields with
  | nil => rfl
  | cons f fs ih =>
    rw [encodeMembers, ih, List.mapM_cons]
    cases encodeField field? f with
    | error e => rfl
    | ok m =>
      cases fs.mapM (encodeField field?) with
      | error e => rfl
      | ok ms => rfl

/-! ### What a codec accepts -/

/-- A container is encoded exactly if it is of the shape that is asked for and its items are
encoded. -/
theorem encodeNonNull_sequence_eq_ok {v : Value} {shape : Shape} {element : CodecRef} {j : Json} :
    t.encodeNonNull v (.sequence shape element) = .ok j ↔
      ∃ items, v = .sequence shape items ∧ (t.encodeItems items element).map .array = .ok j := by
  cases v with
  | sequence shape' items =>
    by_cases hs : shape' = shape
    · simp [hs]
    · simp [hs, CodecError.mismatch]
  | _ => simp [CodecError.mismatch]

/-- A map with textual keys is encoded exactly if its entries are. -/
theorem encodeNonNull_textKeyMap_eq_ok {v : Value} {value : CodecRef} {j : Json} :
    t.encodeNonNull v (.textKeyMap value) = .ok j ↔
      ∃ entries, v = .map entries ∧
        (t.encodeEntries entries none value).map .object = .ok j := by
  cases v with
  | map entries => simp
  | _ => simp [CodecError.mismatch]

/-- A map with parsed keys is encoded exactly if its entries are. -/
theorem encodeNonNull_parsedKeyMap_eq_ok {v : Value} {key value : CodecRef} {j : Json} :
    t.encodeNonNull v (.parsedKeyMap key value) = .ok j ↔
      ∃ entries, v = .map entries ∧
        (t.encodeEntries entries (some key) value).map .object = .ok j := by
  cases v with
  | map entries => simp
  | _ => simp [CodecError.mismatch]

/-- A map in the paired form is encoded exactly if its keys and its values are. -/
theorem encodeNonNull_pairedMap_eq_ok {v : Value} {key value : CodecRef} {j : Json} :
    t.encodeNonNull v (.pairedMap key value) = .ok j ↔
      ∃ entries keys values, v = .map entries ∧ t.encodeKeys entries key = .ok keys ∧
        t.encodeValues entries value = .ok values ∧
          .object [("keys", .array keys), ("values", .array values)] = j := by
  cases v with
  | map entries => simp [Except.bind_eq_ok, pure, Except.pure]
  | _ => simp [CodecError.mismatch]

/-- The codec of a class encodes objects. -/
theorem encodeNonNull_object_eq_ok {v : Value} {name : String} {p : ObjectPlan} {j : Json}
    (h : t.object? name = some p) : t.encodeNonNull v (.generated name) = .ok j ↔
      ∃ typeName fields, v = .object typeName fields ∧
        t.encodeDispatched p typeName (fun name => (t.encodeFields fields).lookup name) =
          .ok j := by
  cases v with
  | object typeName fields => simp [h]
  | _ => simp [h, CodecError.mismatch]

/-- The codec of an enum encodes its variants, unless a class has its name. -/
theorem encodeNonNull_enum {v : Value} {name : String} {p : EnumPlan}
    (h : t.object? name = none) (h' : t.enum? name = some p) :
    t.encodeNonNull v (.generated name) = p.encode v := by
  simp only [encodeNonNull, h, h']

/-- A name that the table does not know is refused. -/
private theorem encodeNonNull_unknown {v : Value} {name : String}
    (h : t.object? name = none) (h' : t.enum? name = none) :
    t.encodeNonNull v (.generated name) = .error (.unknownCodec name) := by
  simp only [encodeNonNull, h, h']

end CodecTable

/-! ### Readable trees -/

open Json

/-- Writing an integer of at most 64 bits is readable. -/
private theorem readable_integer {i : Int} (hlow : -2 ^ 63 ≤ i) (hhigh : i < 2 ^ 63) :
    (Json.number (.integer i)).Readable := by
  rw [Readable, Number.reread?_integer hlow (by omega)]
  rfl

/-- What is written for a scalar is readable. -/
theorem Scalar.readable_encode {s : Scalar} {v : Value} {j : Json} (h : s.encode v = .ok j) :
    j.Readable := by
  unfold Scalar.encode at h
  split at h
  case h_1 => cases h; trivial
  -- An integer of at most 32 bits is within the range of numbers that are read.
  case h_2 n =>
    cases h
    have := n.le_toInt
    have := n.toInt_lt
    exact readable_integer (by omega) (by omega)
  case h_3 n =>
    cases h
    have := n.le_toInt
    have := n.toInt_lt
    exact readable_integer (by omega) (by omega)
  case h_4 n =>
    cases h
    have := n.le_toInt
    have := n.toInt_lt
    exact readable_integer (by omega) (by omega)
  case h_5 => cases h; trivial
  -- A number that need not be finite is written only if it is finite.
  case h_6 x =>
    cases hx : x.finite? with
    | none => simp only [encodeFinite, hx, reduceCtorEq] at h
    | some y =>
      simp only [encodeFinite, hx, Except.ok.injEq] at h
      subst h
      exact Number.isSome_reread?_single y
  case h_7 x =>
    cases hx : x.finite? with
    | none => simp only [encodeFinite, hx, reduceCtorEq] at h
    | some y =>
      simp only [encodeFinite, hx, Except.ok.injEq] at h
      subst h
      exact Number.isSome_reread?_double y
  case h_8 => cases h; trivial
  case h_9 => cases h

/-- Only a string is written as a string, and as itself. -/
private theorem Codec.encodeString_eq_ok {v : Value} {j : Json} (h : Codec.encodeString v = .ok j) :
    ∃ s, v = .string s ∧ j = .string s := by
  unfold Codec.encodeString at h
  split at h
  · cases h
    exact ⟨_, rfl, rfl⟩
  · cases h

/-- A date is written as a string. -/
private theorem Codec.encodeDate_eq_ok {v : Value} {j : Json} (h : Codec.encodeDate v = .ok j) :
    ∃ s, j = .string s := by
  unfold Codec.encodeDate at h
  split at h
  · cases h
    exact ⟨_, rfl⟩
  · cases h

/-- A timestamp is written as a string. -/
private theorem Codec.encodeTimestamp_eq_ok {v : Value} {j : Json}
    (h : Codec.encodeTimestamp v = .ok j) : ∃ s, j = .string s := by
  unfold Codec.encodeTimestamp at h
  split at h
  · cases h
    exact ⟨_, rfl⟩
  · cases h

/-- A local date is written as a string. -/
private theorem Codec.encodeLocalDate_eq_ok {v : Value} {j : Json}
    (h : Codec.encodeLocalDate v = .ok j) : ∃ s, j = .string s := by
  unfold Codec.encodeLocalDate at h
  split at h
  · cases h
    exact ⟨_, rfl⟩
  · cases h

/-- A variant of an enum is written as its name. -/
private theorem EnumPlan.encode_eq_ok {p : EnumPlan} {v : Value} {j : Json}
    (h : p.encode v = .ok j) :
    ∃ typeName variant, v = .enum typeName variant ∧ variant ∈ p.variants ∧
      j = .string variant := by
  unfold EnumPlan.encode at h
  split at h
  · split at h
    case isTrue hmem =>
      cases h
      exact ⟨_, _, rfl, List.contains_iff_mem.1 hmem, rfl⟩
    case isFalse => cases h
  · cases h

namespace CodecTable

/-- The members for fields are readable if the values of the fields are. -/
private theorem readable_encodeMembers {field? : String → Option Encoder} {fields : List FieldPlan}
    {members : List (String × Json)} (h : encodeMembers field? fields = .ok members)
    (hfield : ∀ name encoder, field? name = some encoder →
      ∀ c j, encoder c = .ok j → j.Readable) : ReadableMembers members := by
  rw [encodeMembers_eq, Except.map_eq_ok] at h
  obtain ⟨ms, hms, rfl⟩ := h
  rw [readableMembers_iff]
  -- A member belongs to a field, whose value was encoded or which was written as a zero.
  intro m hm
  obtain ⟨o, ho, hmo⟩ := List.mem_flatMap.1 hm
  obtain ⟨f, -, hf⟩ := Except.exists_of_mem_mapM hms ho
  rw [Option.mem_toList] at hmo
  cases hmo
  unfold encodeField at hf
  split at hf
  -- The field is set.
  case h_1 encoder henc =>
    obtain ⟨j, hj, heq⟩ := Except.map_eq_ok.1 hf
    cases heq
    exact hfield _ _ henc _ _ hj
  -- A field that is not set is written as zero if it is primitive, and left out otherwise.
  case h_2 s _ _ =>
    obtain ⟨j, hj, heq⟩ := Except.map_eq_ok.1 hf
    cases heq
    exact Scalar.readable_encode hj
  case h_3 => cases hf

/-- An object is written readably by a class if the values of its fields are. -/
private theorem readable_encodeUndispatched {t : CodecTable} {p : ObjectPlan} {tagged : Bool}
    {typeName : String} {field? : String → Option Encoder} {j : Json}
    (h : t.encodeUndispatched p tagged typeName field? = .ok j)
    (hfield : ∀ name encoder, field? name = some encoder →
      ∀ c j, encoder c = .ok j → j.Readable) : j.Readable := by
  simp only [encodeUndispatched, Except.bind_eq_ok] at h
  obtain ⟨fields, _, members, hmembers, h⟩ := h
  cases h
  have hreadable := readableMembers_iff.1 (readable_encodeMembers hmembers hfield)
  rw [Readable, readableMembers_iff]
  intro m hm
  rcases List.mem_append.1 hm with hm | hm
  · -- The tag is a string.
    split at hm
    · rw [List.mem_singleton.1 hm]
      trivial
    · cases hm
  · exact hreadable m hm

/-- An object is written readably, whichever class writes it, if the values of its fields are. -/
private theorem readable_encodeDispatched {t : CodecTable} {p : ObjectPlan} {typeName : String}
    {field? : String → Option Encoder} {j : Json}
    (h : t.encodeDispatched p typeName field? = .ok j)
    (hfield : ∀ name encoder, field? name = some encoder →
      ∀ c j, encoder c = .ok j → j.Readable) : j.Readable := by
  unfold encodeDispatched at h
  -- Whether handed on or not, the fields are written by some class.
  split at h
  · obtain ⟨q, _, h⟩ := Except.bind_eq_ok.1 h
    exact readable_encodeUndispatched h hfield
  · exact readable_encodeUndispatched h hfield

/-- What may be null is readable if it is when it is not null. -/
theorem readable_encodeNullable {v : Value} {encoder : Encoder} {c : CodecRef} {j : Json}
    (hv : ∀ j, encoder c = .ok j → j.Readable) (h : encodeNullable v encoder c = .ok j) :
    j.Readable := by
  unfold encodeNullable at h
  split at h
  · cases h
    trivial
  · exact hv j h

/-- An array is readable if its items are. -/
private theorem readable_encodeItems {t : CodecTable} {items : List Value} {c : CodecRef}
    {js : List Json} (hitems : ∀ v ∈ items, ∀ c j, t.encodeJson c v = .ok j → j.Readable)
    (h : t.encodeItems items c = .ok js) : (Json.array js).Readable := by
  rw [encodeItems_eq] at h
  rw [Readable, readableItems_iff]
  intro j hj
  obtain ⟨v, hv, hok⟩ := Except.exists_of_mem_mapM h hj
  exact hitems v hv _ j hok

/-- An object of entries is readable if the values of the entries are. -/
private theorem readable_encodeEntries {t : CodecTable} {entries : List (Value × Value)}
    {key : Option CodecRef} {value : CodecRef} {members : List (String × Json)}
    (hvalues : ∀ e ∈ entries, ∀ c j, t.encodeJson c e.2 = .ok j → j.Readable)
    (h : t.encodeEntries entries key value = .ok members) : (Json.object members).Readable := by
  rw [encodeEntries_eq] at h
  rw [Readable, readableMembers_iff]
  intro m hm
  obtain ⟨e, he, hok⟩ := Except.exists_of_mem_mapM h hm
  simp only [encodeEntry, Except.bind_eq_ok] at hok
  obtain ⟨name, _, j, hj, hok⟩ := hok
  cases hok
  exact hvalues e he _ _ hj

/-- Whether whatever a value is encoded as, through whatever codec, is readable. -/
def EncodesReadable (t : CodecTable) (v : Value) : Prop :=
  ∀ {c : CodecRef} {j : Json}, t.encodeNonNull v c = .ok j → j.Readable

section Parts

variable {t : CodecTable} {v : Value} {j : Json}

/-- The parts of a value may be null. -/
private theorem readable_encodeJson_of_mem (h : ∀ w ∈ v.parts, t.EncodesReadable w) :
    ∀ w ∈ v.parts, ∀ c j, t.encodeJson c w = .ok j → j.Readable :=
  fun w hw _ _ => readable_encodeNullable fun _ => h w hw

/-- Entries are written readably if the parts of the map are. -/
private theorem readable_of_encodeEntries {entries : List (Value × Value)} {key : Option CodecRef}
    {value : CodecRef} {members : List (String × Json)}
    (h : ∀ w ∈ (Value.map entries).parts, t.EncodesReadable w)
    (hms : t.encodeEntries entries key value = .ok members) : (Json.object members).Readable :=
  readable_encodeEntries
    (fun e he => readable_encodeJson_of_mem h e.2 (Value.mem_parts_of_entry he).2) hms

/-- The encoder of a field writes readably if the parts of the object are written so. -/
private theorem readable_encoder_of_lookup {typeName : String} {fields : List (String × Value)}
    (h : ∀ w ∈ (Value.object typeName fields).parts, t.EncodesReadable w) (name : String)
    (encoder : Encoder) (hencoder : (t.encodeFields fields).lookup name = some encoder) :
    ∀ c j, encoder c = .ok j → j.Readable := by
  intro c j hj
  rw [lookup_encodeFields, Option.map_eq_some_iff] at hencoder
  obtain ⟨w, hw, rfl⟩ := hencoder
  exact h w (Value.mem_parts_of_getField? hw) hj

/-- A map in the paired form is written readably if its parts are. -/
private theorem readable_encodeNonNull_pairedMap {key value : CodecRef}
    (h : ∀ w ∈ v.parts, t.EncodesReadable w)
    (hj : t.encodeNonNull v (.pairedMap key value) = .ok j) : j.Readable := by
  obtain ⟨entries, keys, values, rfl, hkeys, hvalues, rfl⟩ := encodeNonNull_pairedMap_eq_ok.1 hj
  rw [encodeKeys_eq] at hkeys
  rw [encodeValues_eq] at hvalues
  rw [Readable, readableMembers_iff]
  intro m hm
  -- Both members are arrays, one of the keys and one of the values.
  rcases List.mem_cons.1 hm with rfl | hm
  · rw [Readable, readableItems_iff]
    intro j hj
    obtain ⟨e, he, hok⟩ := Except.exists_of_mem_mapM hkeys hj
    exact readable_encodeJson_of_mem h _ (Value.mem_parts_of_entry he).1 _ _ hok
  · rw [List.mem_singleton.1 hm, Readable, readableItems_iff]
    intro j hj
    obtain ⟨e, he, hok⟩ := Except.exists_of_mem_mapM hvalues hj
    exact readable_encodeJson_of_mem h _ (Value.mem_parts_of_entry he).2 _ _ hok

/-- The codec of a class or of an enum writes readably if the parts of the value are written so. -/
private theorem readable_encodeNonNull_generated {name : String}
    (h : ∀ w ∈ v.parts, t.EncodesReadable w)
    (hj : t.encodeNonNull v (.generated name) = .ok j) : j.Readable := by
  cases hp : t.object? name with
  | some p =>
    obtain ⟨typeName, fields, rfl, hdisp⟩ := (encodeNonNull_object_eq_ok hp).1 hj
    exact readable_encodeDispatched hdisp (readable_encoder_of_lookup h)
  | none =>
    cases he : t.enum? name with
    | some p =>
      rw [encodeNonNull_enum hp he] at hj
      obtain ⟨_, variant, -, -, rfl⟩ := EnumPlan.encode_eq_ok hj
      trivial
    | none =>
      rw [encodeNonNull_unknown hp he] at hj
      cases hj

/-- Without a declared type a value is written readably if its parts are. -/
private theorem readable_encodeNonNull_any (h : ∀ w ∈ v.parts, t.EncodesReadable w)
    (hj : t.encodeNonNull v .any = .ok j) : j.Readable := by
  rw [encodeNonNull.eq_def] at hj
  cases v with
  -- The leaves are written as strings.
  | null => cases hj; trivial
  | string s => cases hj; trivial
  | enum typeName variant => cases hj; trivial
  | date d =>
    obtain ⟨s, rfl⟩ := Codec.encodeDate_eq_ok hj
    trivial
  | timestamp d =>
    obtain ⟨s, rfl⟩ := Codec.encodeTimestamp_eq_ok hj
    trivial
  | localDate d =>
    obtain ⟨s, rfl⟩ := Codec.encodeLocalDate_eq_ok hj
    trivial
  -- A container is written with its items, a map with its entries, an object with its fields.
  | sequence shape items =>
    obtain ⟨js, hjs, rfl⟩ := Except.map_eq_ok.1 hj
    exact readable_encodeItems (readable_encodeJson_of_mem h) hjs
  | map entries =>
    obtain ⟨ms, hms, rfl⟩ := Except.map_eq_ok.1 hj
    exact readable_of_encodeEntries h hms
  | object typeName fields =>
    obtain ⟨p, _, hj⟩ := Except.bind_eq_ok.1 hj
    exact readable_encodeUndispatched hj (readable_encoder_of_lookup h)
  | _ => exact Scalar.readable_encode hj

end Parts

/-- Whatever is encoded yields a readable tree. -/
theorem readable_encodeNonNull {t : CodecTable} {v : Value} :
    ∀ {c : CodecRef} {j : Json}, t.encodeNonNull v c = .ok j → j.Readable := by
  -- The parts are encoded through other codecs, so the codec is general.
  induction v using Value.induction with
  | step v ih =>
    intro c j h
    cases c with
    -- Scalars and the other leaves are written as numbers, booleans or strings.
    | scalar s =>
      rw [encodeNonNull] at h
      exact Scalar.readable_encode h
    | string =>
      rw [encodeNonNull] at h
      obtain ⟨s, -, rfl⟩ := Codec.encodeString_eq_ok h
      trivial
    | date =>
      rw [encodeNonNull] at h
      obtain ⟨s, rfl⟩ := Codec.encodeDate_eq_ok h
      trivial
    | timestamp =>
      rw [encodeNonNull] at h
      obtain ⟨s, rfl⟩ := Codec.encodeTimestamp_eq_ok h
      trivial
    | localDate =>
      rw [encodeNonNull] at h
      obtain ⟨s, rfl⟩ := Codec.encodeLocalDate_eq_ok h
      trivial
    -- The containers and classes are readable because their parts are.
    | sequence shape element =>
      obtain ⟨items, rfl, hmap⟩ := encodeNonNull_sequence_eq_ok.1 h
      obtain ⟨js, hjs, rfl⟩ := Except.map_eq_ok.1 hmap
      exact readable_encodeItems (readable_encodeJson_of_mem ih) hjs
    | textKeyMap value =>
      obtain ⟨entries, rfl, hmap⟩ := encodeNonNull_textKeyMap_eq_ok.1 h
      obtain ⟨ms, hms, rfl⟩ := Except.map_eq_ok.1 hmap
      exact readable_of_encodeEntries ih hms
    | parsedKeyMap key value =>
      obtain ⟨entries, rfl, hmap⟩ := encodeNonNull_parsedKeyMap_eq_ok.1 h
      obtain ⟨ms, hms, rfl⟩ := Except.map_eq_ok.1 hmap
      exact readable_of_encodeEntries ih hms
    | pairedMap key value => exact readable_encodeNonNull_pairedMap ih h
    | generated name => exact readable_encodeNonNull_generated ih h
    | any => exact readable_encodeNonNull_any ih h

/-- Whatever is encoded, null or not, yields a readable tree. -/
theorem readable_encodeJson {t : CodecTable} {c : CodecRef} {v : Value} {j : Json}
    (h : t.encodeJson c v = .ok j) : j.Readable :=
  readable_encodeNullable (fun _ => readable_encodeNonNull) h

end CodecTable

end GraphCodec
