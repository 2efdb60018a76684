import GraphCodec.Proofs.Codec.Closed
import GraphCodec.Proofs.Codec.Decoding
import GraphCodec.Proofs.Codec.Leaves
import GraphCodec.Proofs.Codec.Text
import GraphCodec.Proofs.Fields
import Mathlib.Tactic.Choose

/-!
# Reading back what was written

`CodecTable.ReadsBack` says that a codec writes one value and reads its text back as another.  It is
lifted from parts to containers here: to sequences, to the three written forms of maps and to
objects, each with the lemma of its own that the decoder needs.  Elements of a set and keys of a map
must stay different, and the members of an object need names of their own.

In the end the text of a value is decoded as what the codec reads back
(`CodecTable.ReadsBack.decode`).
-/

namespace GraphCodec

instance : Inhabited Json := ⟨.null⟩

namespace Value

/-- Elements that all differ are kept. -/
private theorem distinct_eq_self {items : List Value}
    (h : items.Pairwise fun a b => a.same b = false) :
    distinct items = items := by
  -- The fold keeps more and more values, so the induction is for any that are kept already.
  have hfold : ∀ (items kept : List Value), (∀ a ∈ kept, ∀ b ∈ items, a.same b = false) →
      (items.Pairwise fun a b => a.same b = false) →
        items.foldl (fun kept v => if containsSame kept v then kept else v :: kept) kept =
          items.reverse ++ kept := by
    intro items
    induction items with
    | nil => intro kept _ _; rfl
    | cons v rest ih =>
      intro kept hkept hitems
      obtain ⟨hhead, hrest⟩ := List.pairwise_cons.1 hitems
      -- The element differs from all that are kept, so it is kept as well.
      have hnew : containsSame kept v = false := by
        rw [containsSame, List.any_eq_false]
        intro a ha
        rw [hkept a ha v List.mem_cons_self]
        exact Bool.false_ne_true
      -- What comes behind it differs from it and from those.
      have hkept' : ∀ a ∈ v :: kept, ∀ b ∈ rest, a.same b = false := by
        intro a ha b hb
        cases List.mem_cons.1 ha with
        | inl heq => exact heq ▸ hhead b hb
        | inr ha => exact hkept a ha b (List.mem_cons_of_mem _ hb)
      rw [List.foldl_cons, hnew, if_neg Bool.false_ne_true, ih _ hkept' hrest, List.reverse_cons,
        List.append_assoc, List.singleton_append]
  rw [distinct, hfold items [] (fun _ ha => nomatch ha) h, List.append_nil, List.reverse_reverse]

end Value

namespace CodecTable

variable {t : CodecTable} {c : CodecRef} {v w : Value}

/-- Whether a codec writes a value, which may be null, and reads its text back as another. -/
def ReadsBack (t : CodecTable) (c : CodecRef) (v w : Value) : Prop :=
  ∃ j, t.encodeJson c v = .ok j ∧ t.decodeJson c j.reread = .ok w

theorem encodeJson_of_isNull (h : v.isNull = false) : t.encodeJson c v = t.encodeNonNull v c := by
  rw [encodeJson, encodeNullable, h, if_neg Bool.false_ne_true]

/-- A value that is read back from its tree is read back from its text. -/
theorem ReadsBack.decode (h : t.ReadsBack c v w) :
    ∃ text, t.encode c v = .ok text ∧ t.decode c text = .ok w := by
  obtain ⟨j, hj, hw⟩ := h
  refine ⟨j.render, by rw [encode_eq, hj]; rfl, ?_⟩
  rw [CodecTable.decode, Json.parse_render (readable_encodeJson hj)]
  exact hw

/-! ### Leaves -/

/-- Null is read as null. -/
private theorem decodeJson_null (h : t.Knows c) : t.decodeJson c .null = .ok .null := by
  cases c with
  -- A name is known if it is that of a class or of an enum, and both read null.
  | generated name =>
    have hname := h name List.mem_cons_self
    rw [contains, Bool.or_eq_true, Option.isSome_iff_exists, Option.isSome_iff_exists] at hname
    rw [decodeJson]
    cases hobject : t.object? name with
    | some p => rfl
    | none =>
      rw [hobject] at hname
      obtain ⟨p, henum⟩ := hname.resolve_left fun hnone => by
        cases hnone with | intro p hp => cases hp
      rw [henum]
      rfl
  | _ => first | (rw [decodeJson]; done) | (rw [decodeJson]; rfl)

theorem readsBack_null (h : t.Knows c) : t.ReadsBack c .null .null :=
  ⟨.null, rfl, by rw [Json.reread, decodeJson_null h]⟩

/-- A value of a scalar kind is not null. -/
private theorem Scalar.Admits.isNull {s : Scalar} (h : s.Admits v) : v.isNull = false := by
  unfold Scalar.Admits at h
  split at h <;> first | rfl | exact h.elim

/-- A scalar is read back as itself. -/
theorem readsBack_scalar {s : Scalar} (h : s.Admits v) : t.ReadsBack (.scalar s) v v := by
  obtain ⟨j, hj, hv⟩ := Scalar.exists_encode h
  refine ⟨j, ?_, ?_⟩
  · rw [encodeJson_of_isNull (Scalar.Admits.isNull h), encodeNonNull, hj]
  · rw [decodeJson, hv]

/-- A string is read back as itself. -/
theorem readsBack_string (s : String) : t.ReadsBack .string (.string s) (.string s) := by
  refine ⟨.string s, ?_, ?_⟩
  · rw [encodeJson_of_isNull rfl, encodeNonNull]
    rfl
  · rw [Json.reread, decodeJson]
    rfl

/-- A variant is read back with the name of the enum. -/
theorem readsBack_enum {name typeName variant : String} {p : EnumPlan}
    (hobject : t.object? name = none) (henum : t.enum? name = some p)
    (h : variant ∈ p.variants) :
    t.ReadsBack (.generated name) (.enum typeName variant) (.enum p.typeName variant) := by
  have hcontains : p.variants.contains variant = true := List.contains_iff_mem.2 h
  refine ⟨.string variant, ?_, ?_⟩
  -- The variant is one of the enum, so it is written as its name.
  · rw [encodeJson_of_isNull rfl, encodeNonNull_enum hobject henum, EnumPlan.encode, hcontains]
    rfl
  -- The name is that of an enum and no class, so it is read as a variant.
  · rw [Json.reread, decodeJson]
    simp only [hobject, henum]
    rw [EnumPlan.decode, hcontains]
    rfl

/-! ### Containers -/

section Containers

variable {back : Value → Value}

/-- A sequence is read back element by element; the elements of a set must stay different. -/
theorem readsBack_sequence {shape : Shape} {element : CodecRef} {items : List Value}
    (hitems : ∀ v ∈ items, t.ReadsBack element v (back v))
    (hset : shape = .set → (items.map back).Pairwise fun a b => a.same b = false) :
    t.ReadsBack (.sequence shape element) (.sequence shape items)
      (.sequence shape (items.map back)) := by
  -- Each element has a JSON value of its own, from which it is read back.
  choose! js hjs hback using hitems
  refine ⟨.array (items.map js), ?_, ?_⟩
  · rw [encodeJson_of_isNull rfl, encodeNonNull_sequence_eq_ok]
    exact ⟨items, rfl, by rw [encodeItems_eq, Except.mapM_eq_map hjs]; rfl⟩
  -- The items are reread one by one, and none of them is dropped from a set.
  · have hread : ((items.map js).map Json.reread).mapM (t.decodeJson element) =
        .ok (items.map back) := by
      rw [List.mapM_map, List.mapM_map]
      exact Except.mapM_eq_map hback
    rw [Json.reread, Json.rereadItems_eq_map, decodeJson_sequence, hread]
    show Except.ok (Value.sequence shape (if shape = .set then _ else _)) = _
    split
    case isTrue h => rw [Value.distinct_eq_self (hset h)]
    case isFalse => rfl

/-- What an entry of a map is read back as. -/
def backEntry (back : Value → Value) (e : Value × Value) : Value × Value := (back e.1, back e.2)

/-- Whether a key is written as the name of a member and read back from it. -/
def KeyReadsBack (t : CodecTable) (key : Option CodecRef) (k l : Value) : Prop :=
  ∃ name, encodeKey k (t.encodeNonNull k) key = .ok name ∧ t.decodeKey key name = .ok l

theorem keyReadsBack_string (s : String) : t.KeyReadsBack none (.string s) (.string s) :=
  ⟨s, rfl, rfl⟩

/-- A scalar key is read back from the name of its member. -/
theorem keyReadsBack_scalar {s : Scalar} (h : s.Admits v) :
    t.KeyReadsBack (some (.scalar s)) v v := by
  refine ⟨memberName (Scalar.jsonOf v), ?_, ?_⟩
  · rw [encodeKey, Scalar.Admits.isNull h, if_neg Bool.false_ne_true, encodeNonNull,
      Scalar.encode_eq_jsonOf h]
    rfl
  · rw [decodeKey, decodeJson, Scalar.decode_key h]

/-- The entries of a map are read back from members; its keys must stay different. -/
private theorem exists_members {key : Option CodecRef} {value : CodecRef}
    {entries : List (Value × Value)}
    (hkeys : ∀ e ∈ entries, t.KeyReadsBack key e.1 (back e.1))
    (hvalues : ∀ e ∈ entries, t.ReadsBack value e.2 (back e.2))
    (hdiffer : (entries.map (backEntry back)).Pairwise fun e e' => e.1.same e'.1 = false) :
    ∃ members, t.encodeEntries entries key value = .ok members ∧
      collect (t.decodeEntry key value) (Json.rereadMembers members) [] =
        .ok (entries.map (backEntry back)) := by
  -- Each entry has a name and a JSON value of its own; the members are made of these.
  choose! names hnames hkeys using hkeys
  choose! js hjs hvalues using hvalues
  refine ⟨entries.map fun e => (names e, js e), ?_, ?_⟩
  -- Every entry is written as its member.
  · rw [encodeEntries_eq]
    refine Except.mapM_eq_map fun e he => ?_
    rw [encodeEntry, hnames e he, hjs e he]
    rfl
  -- Every member is read as its entry, and all keys are still different.
  · rw [Json.rereadMembers_eq_map, List.map_map]
    refine collect_eq_ok.2 ⟨hdiffer, ?_⟩
    rw [List.forall₂_map_left_iff, List.forall₂_map_right_iff, List.forall₂_same]
    intro e he
    refine ⟨names e, ?_⟩
    rw [decodeEntry, Function.comp]
    dsimp only
    rw [hkeys e he, hvalues e he]
    rfl

/-- A map with textual keys is read back entry by entry. -/
theorem readsBack_textKeyMap {value : CodecRef} {entries : List (Value × Value)}
    (hkeys : ∀ e ∈ entries, t.KeyReadsBack none e.1 (back e.1))
    (hvalues : ∀ e ∈ entries, t.ReadsBack value e.2 (back e.2))
    (hdiffer : (entries.map (backEntry back)).Pairwise fun e e' => e.1.same e'.1 = false) :
    t.ReadsBack (.textKeyMap value) (.map entries) (.map (entries.map (backEntry back))) := by
  obtain ⟨members, hmembers, hcollect⟩ := exists_members hkeys hvalues hdiffer
  refine ⟨.object members, ?_, ?_⟩
  · rw [encodeJson_of_isNull rfl, encodeNonNull_textKeyMap_eq_ok]
    exact ⟨entries, rfl, by rw [hmembers]; rfl⟩
  · rw [Json.reread, decodeJson_textKeyMap, hcollect]
    rfl

/-- A map with parsed keys is read back entry by entry. -/
theorem readsBack_parsedKeyMap {key value : CodecRef} {entries : List (Value × Value)}
    (hkeys : ∀ e ∈ entries, t.KeyReadsBack (some key) e.1 (back e.1))
    (hvalues : ∀ e ∈ entries, t.ReadsBack value e.2 (back e.2))
    (hdiffer : (entries.map (backEntry back)).Pairwise fun e e' => e.1.same e'.1 = false) :
    t.ReadsBack (.parsedKeyMap key value) (.map entries)
      (.map (entries.map (backEntry back))) := by
  obtain ⟨members, hmembers, hcollect⟩ := exists_members hkeys hvalues hdiffer
  refine ⟨.object members, ?_, ?_⟩
  · rw [encodeJson_of_isNull rfl, encodeNonNull_parsedKeyMap_eq_ok]
    exact ⟨entries, rfl, by rw [hmembers]; rfl⟩
  · rw [Json.reread, decodeJson_parsedKeyMap, hcollect]
    rfl

/-- The two arrays that a map with arbitrary keys is written as are read as such. -/
private theorem isPairedForm_arrays (keys values : List Json) :
    isPairedForm [("keys", .array keys), ("values", .array values)] = true ∧
      pairedKeys [("keys", .array keys), ("values", .array values)] = keys ∧
        pairedValues [("keys", .array keys), ("values", .array values)] = .ok values := by
  exact ⟨rfl, rfl, rfl⟩

/-- A map in the paired form is read back key by key and value by value. -/
theorem readsBack_pairedMap {key value : CodecRef} {entries : List (Value × Value)}
    (hkeys : ∀ e ∈ entries, t.ReadsBack key e.1 (back e.1))
    (hvalues : ∀ e ∈ entries, t.ReadsBack value e.2 (back e.2))
    (hdiffer : (entries.map (backEntry back)).Pairwise fun e e' => e.1.same e'.1 = false) :
    t.ReadsBack (.pairedMap key value) (.map entries) (.map (entries.map (backEntry back))) := by
  -- Each key and each value has a JSON value of its own, in the order of the entries.
  choose! ks hks hkeys using hkeys
  choose! vs hvs hvalues using hvalues
  refine ⟨.object [("keys", .array (entries.map ks)), ("values", .array (entries.map vs))],
    ?_, ?_⟩
  · rw [encodeJson_of_isNull rfl, encodeNonNull_pairedMap_eq_ok]
    refine ⟨entries, entries.map ks, entries.map vs, rfl, ?_, ?_, rfl⟩
    · rw [encodeKeys_eq, Except.mapM_eq_map hks]
    · rw [encodeValues_eq, Except.mapM_eq_map hvs]
  -- The object is recognised as the paired form, and rereading leaves the two arrays in place.
  · obtain ⟨hform, hpairedKeys, hpairedValues⟩ := isPairedForm_arrays
      ((entries.map ks).map Json.reread) ((entries.map vs).map Json.reread)
    have hreread : (Json.object [("keys", .array (entries.map ks)),
        ("values", .array (entries.map vs))]).reread =
          .object [("keys", .array ((entries.map ks).map Json.reread)),
            ("values", .array ((entries.map vs).map Json.reread))] := by
      simp only [Json.reread, Json.rereadMembers, Json.rereadItems_eq_map]
    -- The pairs of the arrays are those of the entries.
    have hzip : ((entries.map ks).map Json.reread).zip ((entries.map vs).map Json.reread) =
        entries.map fun e => ((ks e).reread, (vs e).reread) := by
      rw [List.map_map, List.map_map, List.zip_map']
      rfl
    have hcollect : collect (t.decodePair key value)
        (entries.map fun e => ((ks e).reread, (vs e).reread)) [] =
          .ok (entries.map (backEntry back)) := by
      refine collect_eq_ok.2 ⟨hdiffer, ?_⟩
      rw [List.forall₂_map_left_iff, List.forall₂_map_right_iff, List.forall₂_same]
      intro e he
      refine ⟨(ks e).reread.render, ?_⟩
      rw [decodePair, hkeys e he, hvalues e he]
      rfl
    rw [hreread, decodeJson_pairedMap, hform, if_pos rfl, hpairedKeys, hpairedValues]
    show (if _ ≠ _ then _ else _) = _
    rw [if_neg (by simp), hzip, hcollect]
    rfl

end Containers

end CodecTable

end GraphCodec
