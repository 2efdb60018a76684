import Mathlib
import GraphCodec.Proofs.Codec.Decoded

/-!
# Keys that are parsed from names

A map with booleans, characters or integers as keys is an object whose members are named by the
keys.  A name is parsed before it is decoded, so many names stand for one key: `7`, ` 7 `, `+7` and
`7.0` do.  A key that was decoded is written under one of them and read back from it, so a map that
was decoded is written, and its text is decoded as the same map.

The exception is a name that stands for null.  It is decoded as a null key, and a map with one is
refused when it is written (`CodecTable.decode_encode_of_parsedKeys`).
-/

namespace GraphCodec

/-- A scalar that is decoded as null was null. -/
private theorem Scalar.eq_null_of_decode {s : Scalar} {j : Json} (h : s.decode j = .ok .null) :
    j = .null := by
  -- Null is read before the kind of the scalar matters.
  unfold decode at h
  split at h
  case isTrue hnull =>
    cases j with
    | null => rfl
    | _ => cases hnull
  case isFalse =>
    cases s with
    -- Every reader yields a value of its own kind, and none of these is null.
    | _ =>
      obtain ⟨a, -, ha⟩ := Except.map_eq_ok.1 h
      cases ha

namespace CodecTable

variable {t : CodecTable} {s : Scalar} {c key value : CodecRef} {j : Json} {v : Value}

/-- A name stands for null if it is a JSON text of null. -/
private theorem keyJson_eq_null {name : String} :
    keyJson name = .null ↔ Json.parse name = .ok .null := by
  unfold keyJson
  cases Json.parse name with
  | ok j => simp
  | error e => simp

/-- What a map with parsed keys is decoded as: one entry for each member, in order, and no two of
them with equal keys. -/
private theorem exists_of_decodeJson_parsedKeyMap
    (h : t.decodeJson (.parsedKeyMap key value) j = .ok v) (hv : v ≠ .null) :
    ∃ members entries, j = .object members ∧ v = .map entries ∧
      (entries.Pairwise fun e e' => e.1.same e'.1 = false) ∧
      List.Forall₂ (fun (m : String × Json) e => t.decodeJson key (keyJson m.1) = .ok e.1 ∧
        t.decodeJson value m.2 = .ok e.2) members entries := by
  cases j with
  -- Null is read as null, which `hv` excludes.
  | null =>
    rw [decodeJson] at h
    cases h
    exact absurd rfl hv
  | object members =>
    rw [decodeJson_parsedKeyMap] at h
    obtain ⟨entries, hentries, rfl⟩ := Except.map_eq_ok.1 h
    obtain ⟨hdiffer, hread⟩ := collect_eq_ok.1 hentries
    exact ⟨members, entries, rfl, rfl, hdiffer, hread.imp fun _ _ => exists_entry_eq_ok.1⟩
  | _ => simp [decodeJson, CodecError.unexpected] at h

/-! ### Writing what was decoded -/

/-- Whether a codec writes everything that it decodes, and reads it back. -/
def RereadsDecoded (t : CodecTable) (c : CodecRef) : Prop :=
  ∀ j v, t.decodeJson c j = .ok v → ∃ text, t.encode c v = .ok text ∧ t.decode c text = .ok v

/-- Whether a text is an object in which the name of a member stands for null. -/
def HasNullName (text : String) : Prop :=
  ∃ members, Json.parse text = .ok (.object members) ∧ ∃ m ∈ members, Json.parse m.1 = .ok .null

/-- A value that is read back from its text is read back from its tree. -/
theorem readsBack_of_text {w : Value} {text : String} (htext : t.encode c v = .ok text)
    (hw : t.decode c text = .ok w) : t.ReadsBack c v w := by
  rw [encode_eq] at htext
  obtain ⟨j, hj, rfl⟩ := Except.map_eq_ok.1 htext
  rw [CodecTable.decode, Json.parse_render (readable_encodeJson hj)] at hw
  exact ⟨j, hj, hw⟩

/-- A map is read back if its keys are and its values were decoded. -/
private theorem readsBack_of_admits (hvalue : t.RereadsDecoded value)
    {entries : List (Value × Value)} (hdiffer : entries.Pairwise fun e e' => e.1.same e'.1 = false)
    (hkeys : ∀ e ∈ entries, s.Admits e.1)
    (hvalues : ∀ e ∈ entries, ∃ j, t.decodeJson value j = .ok e.2) :
    t.ReadsBack (.parsedKeyMap (.scalar s) value) (.map entries) (.map entries) := by
  -- Each value was decoded, so the codec of the values reads it back.
  have hitems : ∀ e ∈ entries, t.ReadsBack value e.2 (id e.2) := by
    intro e he
    obtain ⟨j, hj⟩ := hvalues e he
    obtain ⟨text, htext, hdecode⟩ := hvalue j e.2 hj
    exact readsBack_of_text htext hdecode
  -- Keys and values read back as themselves, so the entries that come out are those that went in.
  have hself : entries.map (backEntry id) = entries := List.map_id _
  have hback := readsBack_parsedKeyMap (fun e he => keyReadsBack_scalar (hkeys e he)) hitems
    (by rwa [hself])
  rwa [hself] at hback

/-- A map with a null key is refused, if the other keys and the values can be written. -/
private theorem encode_of_null_key (hvalue : t.RereadsDecoded value)
    {entries : List (Value × Value)} (hkeys : ∀ e ∈ entries, e.1 = .null ∨ s.Admits e.1)
    (hvalues : ∀ e ∈ entries, ∃ j, t.decodeJson value j = .ok e.2)
    {w : Value} (hnull : (.null, w) ∈ entries) :
    t.encode (.parsedKeyMap (.scalar s) value) (.map entries) =
      .error (.unexpectedValue .mapKey .null) := by
  -- An entry is either written or refused for its key, and one of them is refused.
  have hentry : ∀ e ∈ entries, ∀ error, t.encodeEntry (some (.scalar s)) value e = .error error →
      error = .unexpectedValue .mapKey .null := by
    intro e he error herror
    rcases hkeys e he with hk | hadmits
    -- The null key is refused.
    · rw [encodeEntry, hk] at herror
      cases herror
      rfl
    -- Another key is written, and so is its value.
    · obtain ⟨name, hname, -⟩ := keyReadsBack_scalar (t := t) hadmits
      obtain ⟨j, hj⟩ := hvalues e he
      obtain ⟨text, htext, hdecode⟩ := hvalue j e.2 hj
      obtain ⟨item, hitem, -⟩ := readsBack_of_text htext hdecode
      rw [encodeEntry, hname, hitem] at herror
      cases herror
  have hrefused : t.encodeEntries entries (some (.scalar s)) value =
      .error (.unexpectedValue .mapKey .null) := by
    -- Since one entry is refused, so are the entries; and the error is that of a null key.
    rw [encodeEntries_eq]
    cases hresult : entries.mapM (t.encodeEntry (some (.scalar s)) value) with
    | error error =>
      obtain ⟨e, he, herror⟩ := Except.exists_of_mapM_eq_error hresult
      rw [hentry e he error herror]
    | ok members =>
      obtain ⟨m, -, hm⟩ := Except.exists_mem_of_mapM hresult hnull
      cases hm
  -- The error passes through the codec of the map.
  rw [encode_eq, encodeJson_of_isNull rfl, encodeNonNull, hrefused]
  rfl

/-- What was decoded as a map whose keys are booleans, characters or integers is written, and its
text is decoded as the same value, unless the name of a member stands for null: then there is a null
key, and that is refused. -/
theorem decode_encode_of_parsedKeys (hs : s.isExact) (hvalue : t.RereadsDecoded value)
    {text : String} (h : t.decode (.parsedKeyMap (.scalar s) value) text = .ok v) :
    (¬HasNullName text → ∃ written,
      t.encode (.parsedKeyMap (.scalar s) value) v = .ok written ∧
        t.decode (.parsedKeyMap (.scalar s) value) written = .ok v) ∧
    (HasNullName text → t.encode (.parsedKeyMap (.scalar s) value) v =
      .error (.unexpectedValue .mapKey .null)) := by
  unfold CodecTable.decode at h
  split at h
  case h_2 => cases h
  case h_1 j hparse =>
  by_cases hv : v = .null
  · -- Only null itself is decoded as null, and it has no members.
    subst hv
    have hnull : t.ReadsBack (.parsedKeyMap (.scalar s) value) .null .null :=
      ⟨.null, rfl, by rw [Json.reread, decodeJson]⟩
    refine ⟨fun _ => hnull.decode, ?_⟩
    rintro ⟨members, hobject, -⟩
    cases hparse.symm.trans hobject
    rw [decodeJson_parsedKeyMap] at h
    obtain ⟨entries, -, hmap⟩ := Except.map_eq_ok.1 h
    cases hmap
  · obtain ⟨members, entries, rfl, rfl, hdiffer, hread⟩ := exists_of_decodeJson_parsedKeyMap h hv
    -- A key is null or of the kind of scalars, as it was decoded through that kind.
    have hkeys : ∀ e ∈ entries, e.1 = .null ∨ s.Admits e.1 := by
      intro e he
      obtain ⟨m, -, hm, -⟩ := hread.exists_of_mem_right he
      rw [decodeJson] at hm
      exact or_iff_not_imp_left.2 fun hne => Scalar.admits_of_decode hs hm hne
    -- A value was decoded from the member of its key.
    have hvalues : ∀ e ∈ entries, ∃ j, t.decodeJson value j = .ok e.2 := by
      intro e he
      obtain ⟨m, -, -, hm⟩ := hread.exists_of_mem_right he
      exact ⟨m.2, hm⟩
    constructor
    -- Without a name that stands for null, no key is null.
    · intro hnone
      refine (readsBack_of_admits hvalue hdiffer (fun e he => ?_) hvalues).decode
      refine (hkeys e he).resolve_left fun hnull => hnone ?_
      obtain ⟨m, hm, hkey, -⟩ := hread.exists_of_mem_right he
      rw [decodeJson, hnull] at hkey
      exact ⟨members, hparse, m, hm, keyJson_eq_null.1 (Scalar.eq_null_of_decode hkey)⟩
    -- A name that stands for null gives a null key.
    · rintro ⟨members', hobject, m, hm, hname⟩
      cases hparse.symm.trans hobject
      obtain ⟨⟨k, w⟩, he, hkey, -⟩ := hread.exists_of_mem_left hm
      rw [keyJson_eq_null.2 hname, decodeJson] at hkey
      cases hkey
      exact encode_of_null_key hvalue hkeys hvalues he

/-- The codec of strings reads back what it decodes. -/
theorem rereadsDecoded_string (t : CodecTable) : t.RereadsDecoded .string := by
  intro j v h
  rw [decodeJson] at h
  -- Only null and strings are decoded through the codec of strings.
  cases j with
  | null =>
    cases h
    exact ReadsBack.decode ⟨.null, rfl, by rw [Json.reread, decodeJson]; rfl⟩
  | string s =>
    cases h
    exact (readsBack_string s).decode
  | _ => cases h

/-- Numbers are written in one way, whichever way their names were written. -/
theorem decode_encode_of_numbered :
    let t := empty defaultTag
    let c := CodecRef.parsedKeyMap (.scalar .long) .string
    let read := Value.map [(.long 7, .string "seven"), (.long 8, .string "eight")]
    Scalar.long.isExact ∧ t.RereadsDecoded .string ∧
      t.decode c "\x7b\" 7 \":\"seven\",\"+8\":\"eight\"\x7d" = .ok read ∧
      t.encode c read = .ok "\x7b\"7\":\"seven\",\"8\":\"eight\"\x7d" ∧
      t.decode c "\x7b\"7\":\"seven\",\"8\":\"eight\"\x7d" = .ok read := by
  intro t c read
  have hread : t.decode c "\x7b\" 7 \":\"seven\",\"+8\":\"eight\"\x7d" = .ok read := by cbv
  have htext : t.encode c read = .ok "\x7b\"7\":\"seven\",\"8\":\"eight\"\x7d" := by cbv
  have hreread := decode_encode_of_parsedKeys rfl (rereadsDecoded_string t) hread
  -- No name stands for null, because the map is not refused.
  have hnone : ¬HasNullName "\x7b\" 7 \":\"seven\",\"+8\":\"eight\"\x7d" := fun hnull => by
    cases htext.symm.trans (hreread.2 hnull)
  obtain ⟨written, hwritten, hback⟩ := hreread.1 hnone
  cases hwritten.symm.trans htext
  exact ⟨rfl, rereadsDecoded_string t, hread, htext, hback⟩

/-- A name that stands for null is decoded as a key, and what is decoded then is refused. -/
theorem not_encode_of_null_name :
    let t := empty defaultTag
    let c := CodecRef.parsedKeyMap (.scalar .int) .string
    Scalar.int.isExact ∧ t.RereadsDecoded .string ∧
      t.decode c "\x7b\"null\":\"none\"\x7d" = .ok (.map [(.null, .string "none")]) ∧
      ¬∃ written, t.encode c (.map [(.null, .string "none")]) = .ok written := by
  intro t c
  -- The name parses as null, which the codec of integers reads as null.
  have hread : t.decode c "\x7b\"null\":\"none\"\x7d" =
      .ok (.map [(.null, .string "none")]) := by cbv
  have hrefused : t.encode c (.map [(.null, .string "none")]) =
      .error (.unexpectedValue .mapKey .null) := by cbv
  refine ⟨rfl, rereadsDecoded_string t, hread, ?_⟩
  rintro ⟨written, hwritten⟩
  cases hwritten.symm.trans hrefused

end CodecTable

end GraphCodec
