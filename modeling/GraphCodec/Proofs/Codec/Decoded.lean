import GraphCodec.Proofs.Codec.Objects

/-!
# What decoding yields

Whatever JSON value a codec accepts, what it makes of it is null or has the shape that the codec
stands for.  The parts of the result are decoded from JSON values of less weight
(`CodecTable.DecodesBelow`), which carries an induction on the weight through containers and
objects.  A set comes out without equal elements (`Value.pairwise_distinct`) and a map without equal
keys (`CodecTable.collect_eq_ok`), whatever is repeated in the JSON value.
-/

namespace GraphCodec

namespace Scalar

/-- Whether all values of a kind are read back as they are; floating-point numbers are not. -/
def isExact : Scalar → Bool
  | float | double => false
  | _ => true

/-- The zero of a scalar is a value of its kind. -/
theorem admits_zero {s : Scalar} (h : s.isExact) : s.Admits s.zero := by
  cases s with
  | float => cases h
  | double => cases h
  | _ => trivial

/-- A scalar is decoded as null or as a value of its kind. -/
theorem admits_of_decode {s : Scalar} (hs : s.isExact) {j : Json} {v : Value}
    (h : s.decode j = .ok v) (hv : v ≠ .null) : s.Admits v := by
  unfold decode at h
  -- Null is read as null, which `hv` excludes.
  split at h
  case isTrue =>
    cases h
    exact absurd rfl hv
  case isFalse =>
    -- Every other reader yields a value of its own kind.
    cases s with
    | float => cases hs
    | double => cases hs
    | _ =>
      obtain ⟨a, -, rfl⟩ := Except.map_eq_ok.1 h
      trivial

end Scalar

namespace Value

/-- What is kept of the elements of a set is what was kept before and some of the elements, all of
them different. -/
private theorem foldl_distinct (items : List Value) {kept : List Value}
    (hkept : kept.Pairwise fun a b => b.same a = false) :
    (items.foldl (fun kept v => if containsSame kept v then kept else v :: kept) kept).Pairwise
        (fun a b => b.same a = false) ∧
      ∀ v ∈ items.foldl (fun kept v => if containsSame kept v then kept else v :: kept) kept,
        v ∈ kept ∨ v ∈ items := by
  -- `kept` grows along the fold, so both facts are carried for whatever is kept so far.
  induction items generalizing kept with
  | nil => exact ⟨hkept, fun v hv => Or.inl hv⟩
  | cons v rest ih =>
    rw [List.foldl_cons]
    split
    -- An element that is kept already changes nothing.
    case isTrue =>
      obtain ⟨hpairwise, hmem⟩ := ih hkept
      exact ⟨hpairwise, fun w hw => (hmem w hw).imp_right (List.mem_cons_of_mem v)⟩
    -- A new element differs from all that are kept, and is kept in front of them.
    case isFalse hnew =>
      have hdiffer : ∀ w ∈ kept, w.same v = false := by
        rw [Bool.not_eq_true, containsSame, List.any_eq_false] at hnew
        exact fun w hw => Bool.not_eq_true _ ▸ hnew w hw
      obtain ⟨hpairwise, hmem⟩ := ih (List.pairwise_cons.2 ⟨hdiffer, hkept⟩)
      refine ⟨hpairwise, fun w hw => ?_⟩
      rcases hmem w hw with hw | hw
      · rcases List.mem_cons.1 hw with rfl | hw
        · exact Or.inr List.mem_cons_self
        · exact Or.inl hw
      · exact Or.inr (List.mem_cons_of_mem v hw)

/-- No two elements that are kept in a set are equal. -/
theorem pairwise_distinct (items : List Value) :
    (distinct items).Pairwise fun a b => a.same b = false :=
  List.pairwise_reverse.2 (foldl_distinct items List.Pairwise.nil).1

/-- What is left of the elements after repeated ones are dropped are some of the elements. -/
private theorem mem_of_mem_distinct {items : List Value} {v : Value} (h : v ∈ distinct items) :
    v ∈ items :=
  ((foldl_distinct items List.Pairwise.nil).2 v (List.mem_reverse.1 h)).resolve_left
    List.not_mem_nil

end Value

namespace CodecTable

variable {t : CodecTable} {p q : ObjectPlan} {c element key value : CodecRef} {j : Json} {v : Value}

/-- Whether a value is what a codec makes of some JSON value below a weight. -/
def DecodesBelow (t : CodecTable) (weight : Nat) (c : CodecRef) (v : Value) : Prop :=
  ∃ j : Json, j.weight < weight ∧ t.decodeJson c j = .ok v

/-! ### Containers -/

/-- What a sequence is decoded as: the elements of an array, and in a set no two equal ones. -/
theorem exists_of_decodeJson_sequence {shape : Shape}
    (h : t.decodeJson (.sequence shape element) j = .ok v) (hv : v ≠ .null) :
    ∃ items, v = .sequence shape items ∧ (∀ w ∈ items, t.DecodesBelow j.weight element w) ∧
      (shape = .set → items.Pairwise fun a b => a.same b = false) := by
  cases j with
  -- Null is read as null, and no other kind of value but an array as a sequence.
  | null =>
    rw [decodeJson] at h
    cases h
    exact absurd rfl hv
  | array items =>
    rw [decodeJson_sequence] at h
    obtain ⟨vs, hvs, rfl⟩ := Except.map_eq_ok.1 h
    -- Each element comes from an item, which weighs less than the array.
    have hbelow : ∀ w ∈ vs, t.DecodesBelow (Json.array items).weight element w := by
      intro w hw
      obtain ⟨k, hk, hdecode⟩ := Except.exists_of_mem_mapM hvs hw
      have hle := Json.weight_le_of_mem hk
      refine ⟨k, ?_, hdecode⟩
      simp only [Json.weight]
      omega
    -- A set drops equal items, so what it keeps is still among the items read.
    by_cases hshape : shape = .set
    · rw [if_pos hshape]
      exact ⟨_, rfl, fun w hw => hbelow w (Value.mem_of_mem_distinct hw), fun _ =>
        Value.pairwise_distinct vs⟩
    · rw [if_neg hshape]
      exact ⟨vs, rfl, hbelow, fun heq => absurd heq hshape⟩
  | _ => simp [decodeJson, CodecError.unexpected] at h

/-- What a map with text keys is decoded as. -/
theorem exists_of_decodeJson_textKeyMap (h : t.decodeJson (.textKeyMap value) j = .ok v)
    (hv : v ≠ .null) :
    ∃ entries, v = .map entries ∧
      (entries.Pairwise fun e e' => e.1.same e'.1 = false) ∧
      ∀ e ∈ entries, (∃ s, e.1 = .string s) ∧ t.DecodesBelow j.weight value e.2 := by
  cases j with
  | null =>
    rw [decodeJson] at h
    cases h
    exact absurd rfl hv
  | object members =>
    rw [decodeJson_textKeyMap] at h
    obtain ⟨entries, hentries, rfl⟩ := Except.map_eq_ok.1 h
    obtain ⟨hpairwise, hread⟩ := collect_eq_ok.1 hentries
    -- Each entry comes from a member: its key is the name and its value that of the member.
    refine ⟨entries, rfl, hpairwise, fun e he => ?_⟩
    obtain ⟨m, hm, hentry⟩ := hread.exists_of_mem_right he
    obtain ⟨hk, hw⟩ := exists_entry_eq_ok.1 hentry
    have hlt := Json.weight_lt_of_mem hm
    refine ⟨⟨m.1, (Except.ok.inj hk).symm⟩, m.2, ?_, hw⟩
    simp only [Json.weight]
    omega
  | _ => simp [decodeJson, CodecError.unexpected] at h

/-- What a map with keys of any type is decoded as, from whichever of its two forms. -/
theorem exists_of_decodeJson_pairedMap (h : t.decodeJson (.pairedMap key value) j = .ok v)
    (hv : v ≠ .null) :
    ∃ entries, v = .map entries ∧
      (entries.Pairwise fun e e' => e.1.same e'.1 = false) ∧
      ∀ e ∈ entries,
        t.DecodesBelow j.weight key e.1 ∧ t.DecodesBelow j.weight value e.2 := by
  cases j with
  | null =>
    rw [decodeJson] at h
    cases h
    exact absurd rfl hv
  | object members =>
    rw [decodeJson_pairedMap] at h
    split at h
    -- Keys and values in two parallel arrays: each entry is read from a pair of their elements.
    case isTrue =>
      obtain ⟨values, hvalues, h⟩ := Except.bind_eq_ok.1 h
      split at h
      case isTrue => cases h
      case isFalse =>
        obtain ⟨entries, hentries, rfl⟩ := Except.map_eq_ok.1 h
        obtain ⟨hpairwise, hread⟩ := collect_eq_ok.1 hentries
        refine ⟨entries, rfl, hpairwise, fun e he => ?_⟩
        obtain ⟨pair, hpair, hentry⟩ := hread.exists_of_mem_right he
        obtain ⟨hk, hw⟩ := exists_entry_eq_ok.1 hentry
        have hleft := Json.weight_le_of_mem (List.of_mem_zip hpair).1
        have hright := Json.weight_le_of_mem (List.of_mem_zip hpair).2
        have hkeys := weight_pairedKeys members
        have hvalues := weight_pairedValues hvalues
        refine ⟨⟨pair.1, ?_, hk⟩, pair.2, ?_, hw⟩
        all_goals simp only [Json.weight]; omega
    -- An ordinary object: each key is read from the name of a member.
    case isFalse =>
      obtain ⟨entries, hentries, rfl⟩ := Except.map_eq_ok.1 h
      obtain ⟨hpairwise, hread⟩ := collect_eq_ok.1 hentries
      refine ⟨entries, rfl, hpairwise, fun e he => ?_⟩
      obtain ⟨m, hm, hentry⟩ := hread.exists_of_mem_right he
      obtain ⟨hk, hw⟩ := exists_entry_eq_ok.1 hentry
      have hlt := Json.weight_lt_of_mem hm
      have hpos := Json.weight_pos m.2
      refine ⟨⟨.string m.1, ?_, hk⟩, m.2, ?_, hw⟩
      all_goals simp only [Json.weight]; omega
  | _ => simp [decodeJson, CodecError.unexpected] at h

/-! ### Enums and objects -/

/-- What an enum is decoded as. -/
theorem exists_of_decodeJson_enum {name : String} {e : EnumPlan} (hobject : t.object? name = none)
    (henum : t.enum? name = some e) (h : t.decodeJson (.generated name) j = .ok v)
    (hv : v ≠ .null) : ∃ variant ∈ e.variants, v = .enum e.typeName variant := by
  rw [decodeJson] at h
  simp only [hobject, henum] at h
  unfold EnumPlan.decode at h
  -- Null is read as null, a string as the variant of its name, and no other kind of value at all.
  split at h
  case h_1 =>
    cases h
    exact absurd rfl hv
  case h_2 variant =>
    split at h
    case isTrue hcontains =>
      cases h
      exact ⟨variant, List.contains_iff_mem.1 hcontains, rfl⟩
    case isFalse => cases h
  case h_3 => cases h

/-- An object is only handed on to a subtype that the declared class knows, under its name. -/
private theorem of_codecFor_eq_ok {members : List (String × Json)}
    (h : t.codecFor p members = .ok q) :
    q = p ∨ q.typeName ∈ p.subtypes ∧ t.object? q.typeName = some q :=
  (handsOn_of_codecFor h).imp_right fun ⟨_, hknows, hq⟩ => ⟨mem_of_binarySearch hknows, hq⟩

/-- What a field is read as: the value of its member, if that is there, and null made zero if the
field is primitive. -/
def FieldDecodes (t : CodecTable) (weight : Nat) (f : FieldPlan) (e : String × Value) : Prop :=
  ∃ w, e = (f.name, fieldValue f w) ∧
    (w = .null ∨ t.DecodesBelow weight f.encoding.codec w)

/-- What an object is decoded as: one of a class that has instances, with all fields of its class
read in order. -/
theorem exists_of_decodeJson_object {name : String} (hp : t.object? name = some p)
    (h : t.decodeJson (.generated name) j = .ok v) (hv : v ≠ .null) :
    ∃ q plans read, (q = p ∨ q.typeName ∈ p.subtypes ∧ t.object? q.typeName = some q) ∧
      q.isAbstract = false ∧ t.chainFields q = .ok plans ∧
      List.Forall₂ (t.FieldDecodes j.weight) plans read ∧
      v = .object q.typeName (assign [] read) := by
  cases j with
  | null =>
    -- Null is read as null, and no other kind of value but an object as an instance.
    rw [decodeJson] at h
    simp only [hp] at h
    cases h
    exact absurd rfl hv
  | object members =>
    rw [decodeJson_generated hp] at h
    obtain ⟨q, hq, h⟩ := Except.bind_eq_ok.1 h
    -- A class without instances reads as null.
    unfold decodeAs at h
    split at h
    case isTrue =>
      cases h
      exact absurd rfl hv
    case isFalse hconcrete =>
      obtain ⟨plans, hplans, h⟩ := Except.bind_eq_ok.1 h
      obtain ⟨read, hread, h⟩ := Except.bind_eq_ok.1 h
      cases h
      refine ⟨q, plans, read, of_codecFor_eq_ok hq, Bool.eq_false_iff.2 hconcrete, hplans, ?_, rfl⟩
      refine (Except.mapM_eq_ok.1 hread).imp fun f e he => ?_
      -- A missing member is read as null; one that is there weighs less than the object.
      unfold readField at he
      split at he
      case h_1 =>
        cases he
        exact ⟨.null, rfl, Or.inl rfl⟩
      case h_2 k hk =>
        obtain ⟨w, hw, rfl⟩ := Except.map_eq_ok.1 he
        have hlt := Json.weight_lt_of_mem (Json.mem_of_member? hk)
        refine ⟨w, rfl, Or.inr ⟨k, ?_, hw⟩⟩
        simp only [Json.weight]
        omega
  | _ => simp [decodeJson, hp, CodecError.unexpected] at h

end CodecTable

end GraphCodec
