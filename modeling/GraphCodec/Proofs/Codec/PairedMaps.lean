import GraphCodec.Proofs.Codec.Objects

/-!
# Maps with keys of any type

A map with keys of any type is read from an object whose members are two arrays, one of keys and one
of values, or else from any object, whose names are then the texts of keys.  If no name is repeated
in an object of the first form, what is read accounts for everything in the object
(`CodecTable.decodeJson_pairedMap_eq_ok_iff`): for every key and value in the arrays, or for every
member, there is one entry, in order, and no two entries have equal keys.  Anything else is refused.

Where a name is repeated, only the first array under it is read, and the others are passed over
(`CodecTable.not_accounts`).
-/

namespace GraphCodec

namespace Json

/-- The elements of an array. -/
def elements : Json → List Json
  | array items => items
  | _ => []

/-- The elements of all arrays under a name. -/
def elementsUnder (name : String) (members : List (String × Json)) : List Json :=
  members.flatMap fun m => if m.1 = name then m.2.elements else []

/-- Under a name that no member has there are no elements. -/
private theorem elementsUnder_of_notMem {name : String} {members : List (String × Json)}
    (h : name ∉ members.map (·.1)) : elementsUnder name members = [] := by
  rw [elementsUnder, List.flatMap_eq_nil_iff]
  intro m hm
  exact if_neg fun heq : m.1 = name => h (heq ▸ List.mem_map_of_mem hm)

/-- Among members of different names at most one array is under a name. -/
theorem elementsUnder_of_nodup {members : List (String × Json)}
    (h : (members.map (·.1)).Nodup) (name : String) :
    elementsUnder name members = ((member? members name).map elements).getD [] := by
  induction members with
  | nil => rfl
  | cons m rest ih =>
    obtain ⟨other, j⟩ := m
    rw [List.map_cons, List.nodup_cons] at h
    rw [elementsUnder, List.flatMap_cons, CodecTable.member?_cons]
    by_cases hname : other = name
    · -- The member in front is the only one of its name.
      subst hname
      have hrest := elementsUnder_of_notMem h.1
      rw [elementsUnder] at hrest
      rw [if_pos rfl, if_pos rfl, hrest, List.append_nil]
      rfl
    -- The member in front has another name.
    · rw [if_neg hname, if_neg (Ne.symm hname), List.nil_append]
      exact ih h.2

end Json

namespace CodecTable

variable {t : CodecTable} {key value : CodecRef} {members : List (String × Json)} {v : Value}

/-! ### What is read -/

/-- Whether the values of a map in two arrays are an array, null or missing. -/
def HasValues (members : List (String × Json)) : Prop :=
  ∀ j, Json.member? members "values" = some j → j.kind = .array ∨ j.kind = .null

/-- Whether each entry of a map is read from one key and one value of the arrays in an object, or
from one member of it, with nothing left over. -/
inductive Accounts (t : CodecTable) (key value : CodecRef) (members : List (String × Json))
    (entries : List (Value × Value)) : Prop where
  | arrays (hform : isPairedForm members = true) (hvalues : HasValues members)
    (hkeys : List.Forall₂ (fun j e => t.decodeJson key j = .ok e.1)
      (Json.elementsUnder "keys" members) entries)
    (hitems : List.Forall₂ (fun j e => t.decodeJson value j = .ok e.2)
      (Json.elementsUnder "values" members) entries)
  | members (hform : isPairedForm members = false)
    (h : List.Forall₂ (fun m e => t.decodeJson key (.string m.1) = .ok e.1 ∧
      t.decodeJson value m.2 = .ok e.2) members entries)

/-- If no name is repeated, the keys are the elements under `keys`. -/
private theorem pairedKeys_eq (h : (members.map (·.1)).Nodup) :
    pairedKeys members = Json.elementsUnder "keys" members := by
  rw [Json.elementsUnder_of_nodup h, pairedKeys]
  split
  case h_1 keys hkeys => rw [hkeys]; rfl
  -- Whatever else stands under the name, there are no keys.
  case h_2 hnone =>
    cases hm : Json.member? members "keys" with
    | none => rfl
    | some j =>
      cases j with
      | array keys => exact absurd hm (hnone keys)
      | _ => rfl

/-- If no name is repeated, the values are the elements under `values`, if those have any. -/
private theorem pairedValues_eq_ok_iff (h : (members.map (·.1)).Nodup) {values : List Json} :
    pairedValues members = .ok values ↔
      HasValues members ∧ values = Json.elementsUnder "values" members := by
  rw [Json.elementsUnder_of_nodup h, pairedValues, HasValues]
  cases Json.member? members "values" with
  | none => simp [eq_comm]
  | some j => cases j <;> simp [CodecError.unexpected, Json.elements, Json.kind, eq_comm]

/-- Two arrays are read as a map exactly if the values are an array, null or missing, there are as
many values as keys, and all of them are read, with different keys. -/
private theorem decodeJson_arrays_eq_ok_iff (hform : isPairedForm members = true)
    (hnodup : (members.map (·.1)).Nodup) :
    t.decodeJson (.pairedMap key value) (.object members) = .ok v ↔
      ∃ entries, v = .map entries ∧
        (entries.Pairwise fun e e' => e.1.same e'.1 = false) ∧ HasValues members ∧
        List.Forall₂ (fun j e => t.decodeJson key j = .ok e.1)
          (Json.elementsUnder "keys" members) entries ∧
        List.Forall₂ (fun j e => t.decodeJson value j = .ok e.2)
          (Json.elementsUnder "values" members) entries := by
  rw [decodeJson_pairedMap, if_pos hform, Except.bind_eq_ok, pairedKeys_eq hnodup]
  constructor
  -- The values are found, as many as the keys, and every pair of the two arrays is read.
  · rintro ⟨values, hvalues, h⟩
    obtain ⟨hhas, rfl⟩ := (pairedValues_eq_ok_iff hnodup).1 hvalues
    split at h
    case isTrue => cases h
    case isFalse hlength =>
      obtain ⟨entries, hentries, rfl⟩ := Except.map_eq_ok.1 h
      obtain ⟨hdiffer, hread⟩ := collect_eq_ok.1 hentries
      simp only [decodePair, exists_entry_eq_ok] at hread
      -- Pairing loses nothing of either array only because both have one length.
      exact ⟨entries, rfl, hdiffer, hhas, (List.forall₂_zip_iff (not_not.1 hlength)).1 hread⟩
  -- Conversely both arrays are as long as the list of entries.
  · rintro ⟨entries, rfl, hdiffer, hhas, hkeys, hitems⟩
    have hlength := hkeys.length_eq.trans hitems.length_eq.symm
    have hread := (List.forall₂_zip_iff hlength).2 ⟨hkeys, hitems⟩
    refine ⟨_, (pairedValues_eq_ok_iff hnodup).2 ⟨hhas, rfl⟩, ?_⟩
    rw [if_neg (not_not.2 hlength), Except.map_eq_ok]
    refine ⟨entries, collect_eq_ok.2 ⟨hdiffer, ?_⟩, rfl⟩
    simp only [decodePair, exists_entry_eq_ok]
    exact hread

/-- Members are read as a map exactly if all of them are read, with different keys. -/
private theorem decodeJson_members_eq_ok_iff (hform : isPairedForm members = false) :
    t.decodeJson (.pairedMap key value) (.object members) = .ok v ↔
      ∃ entries, v = .map entries ∧
        (entries.Pairwise fun e e' => e.1.same e'.1 = false) ∧
        List.Forall₂ (fun m e => t.decodeJson key (.string m.1) = .ok e.1 ∧
          t.decodeJson value m.2 = .ok e.2) members entries := by
  rw [decodeJson_pairedMap, hform, if_neg Bool.false_ne_true, Except.map_eq_ok]
  simp only [collect_eq_ok, decodeNamedPair, exists_entry_eq_ok]
  constructor
  · rintro ⟨entries, h, rfl⟩
    exact ⟨entries, rfl, h⟩
  · rintro ⟨entries, rfl, h⟩
    exact ⟨entries, h, rfl⟩

/-- Arrays of different length are refused. -/
private theorem decodeJson_arrays_of_length_ne (hform : isPairedForm members = true)
    (hnodup : (members.map (·.1)).Nodup) (hvalues : HasValues members)
    (hlength : (Json.elementsUnder "keys" members).length ≠
      (Json.elementsUnder "values" members).length) :
    t.decodeJson (.pairedMap key value) (.object members) =
      .error (.mismatchedMapArrays (Json.elementsUnder "keys" members).length
        (Json.elementsUnder "values" members).length) := by
  -- The keys and the values are found, and their numbers are compared.
  rw [decodeJson_pairedMap, if_pos hform, pairedKeys_eq hnodup,
    (pairedValues_eq_ok_iff hnodup).2 ⟨hvalues, rfl⟩]
  exact if_pos hlength

/-- An object is read as a map exactly if the map has one entry for every key and every value in the
two arrays, or for every member, in order, and no two entries have equal keys; arrays of different
length are refused.  In an object that is made of two arrays, no name may be repeated. -/
theorem decodeJson_pairedMap_eq_ok_iff
    (hunrepeated : isPairedForm members = true → (members.map (·.1)).Nodup) :
    (t.decodeJson (.pairedMap key value) (.object members) = .ok v ↔
      ∃ entries, v = .map entries ∧
        (entries.Pairwise fun e e' => e.1.same e'.1 = false) ∧
        t.Accounts key value members entries) ∧
      (isPairedForm members = true → HasValues members →
        (Json.elementsUnder "keys" members).length ≠
          (Json.elementsUnder "values" members).length →
        t.decodeJson (.pairedMap key value) (.object members) =
          .error (.mismatchedMapArrays (Json.elementsUnder "keys" members).length
            (Json.elementsUnder "values" members).length)) := by
  refine ⟨?_, fun hform => decodeJson_arrays_of_length_ne hform (hunrepeated hform)⟩
  -- Each of the two forms excludes the other, so one sort of account is left.
  cases hform : isPairedForm members with
  | true =>
    rw [decodeJson_arrays_eq_ok_iff hform (hunrepeated hform)]
    refine exists_congr fun entries => and_congr_right fun _ => and_congr_right fun _ => ?_
    constructor
    · rintro ⟨hvalues, hkeys, hitems⟩
      exact .arrays hform hvalues hkeys hitems
    · rintro (⟨_, hvalues, hkeys, hitems⟩ | ⟨hnot, _⟩)
      · exact ⟨hvalues, hkeys, hitems⟩
      · cases hform.symm.trans hnot
  | false =>
    rw [decodeJson_members_eq_ok_iff hform]
    refine exists_congr fun entries => and_congr_right fun _ => and_congr_right fun _ => ?_
    constructor
    · exact .members hform
    · rintro (⟨hnot, _, _, _⟩ | ⟨_, h⟩)
      · cases hform.symm.trans hnot
      · exact h

/-- The values can stand in front of the keys. -/
theorem decodeJson_pairedMap_of_numbered :
    let t := empty defaultTag
    let members := [("values", Json.array [.string "x", .null]),
      ("keys", .array [.number (.integer 1), .string "2"])]
    let entries := [(Value.int 1, Value.string "x"), (.int 2, .null)]
    (members.map (·.1)).Nodup ∧ t.Accounts (.scalar .int) .string members entries ∧
      t.decodeJson (.pairedMap (.scalar .int) .string) (.object members) = .ok (.map entries) := by
  intro t members entries
  have hnodup : (members.map (·.1)).Nodup := by decide
  -- Only one member is named so, and it is an array.
  have hvalues : HasValues members := fun j hj => by
    cases hj
    exact Or.inl rfl
  have haccounts : t.Accounts (.scalar .int) .string members entries :=
    .arrays rfl hvalues (.cons (by cbv) (.cons (by cbv) .nil))
      (.cons (by cbv) (.cons (by cbv) .nil))
  have hread := (decodeJson_pairedMap_eq_ok_iff fun _ => hnodup).1.2
    ⟨entries, rfl, by decide +kernel, haccounts⟩
  exact ⟨hnodup, haccounts, hread⟩

/-- A second array of keys is passed over, without an error. -/
theorem not_accounts :
    let t := empty defaultTag
    let members := [("keys", Json.array [.string "a"]), ("keys", .array [.string "b"]),
      ("values", .array [.string "x"])]
    let entries := [(Value.string "a", Value.string "x")]
    let text := "\x7b\"keys\":[\"a\"],\"keys\":[\"b\"],\"values\":[\"x\"]\x7d"
    Json.parse text = .ok (.object members) ∧
      t.decode (.pairedMap .string .any) text = .ok (.map entries) ∧
      ¬t.Accounts .string .any members entries := by
  intro t members entries text
  refine ⟨by cbv, by cbv, ?_⟩
  rintro (⟨-, -, hkeys, -⟩ | ⟨hnot, -⟩)
  -- The other account is that of an object without the two arrays.
  · -- Two arrays with a key each are there, and one entry.
    exact absurd hkeys.length_eq (by decide)
  · exact absurd hnot (by decide)

end CodecTable

end GraphCodec
