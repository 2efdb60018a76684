import GraphCodec.Proofs.Codec.Calls
import GraphCodec.Proofs.Codec.Decoding
import GraphCodec.Proofs.Codec.Superclasses

/-!
# Calls that decode

Where no class is above itself, the calls that decode a JSON value come to an end with what
`CodecTable.decodeJson` reads (`Calling.returns_decode`).  As for encoding, at most three calls
stand between an object and its class, and no more than there are classes in the table lead up from
there, before the members of the object are decoded.  The name of a member can be parsed as a tree
of its own, so the depth of calls is bounded by the weight of the tree, names included, and with it
by the length of the text.
-/

namespace GraphCodec

namespace CodecTable

variable {t : CodecTable} {p q : ObjectPlan} {members : List (String × Json)}

/-- What is read for more fields is set after what was read before. -/
private theorem assign_append (fields read more : List (String × Value)) :
    assign fields (read ++ more) = assign (assign fields read) more :=
  List.foldl_append

/-- The value that is read for a field: a member that is missing reads as null. -/
def memberValue (t : CodecTable) (members : List (String × Json)) (f : FieldPlan) :
    Except CodecError Value :=
  match Json.member? members f.wireName with
  | some j => t.decodeJson f.encoding.codec j
  | none => .ok .null

/-- The first field is set before the others are read. -/
theorem mapM_readField_cons (f : FieldPlan) (fs : List FieldPlan)
    (fields : List (String × Value)) :
    ((f :: fs).mapM (t.readField members)).map (assign fields) = (do
      let v ← t.memberValue members f
      (fs.mapM (t.readField members)).map
        (assign (Value.setField fields f.name (fieldValue f v)))) := by
  rw [List.mapM_cons, readField, memberValue]
  -- The first field is read from its member, or as null, whatever the others are read from.
  cases Json.member? members f.wireName with
  | none => cases fs.mapM (t.readField members) <;> rfl
  | some j =>
    dsimp only
    cases t.decodeJson f.encoding.codec j with
    | error e => rfl
    | ok v => cases fs.mapM (t.readField members) <;> rfl

/-- Reads the fields of a class into an object that has fields: those of its superclasses, which are
followed up to a number of steps, and then its own. -/
def readWithin (t : CodecTable) (steps : Nat) (p : ObjectPlan) (members : List (String × Json))
    (fields : List (String × Value)) : Except CodecError (List (String × Value)) := do
  let plans ← t.chainWithin steps p
  let read ← (plans.flatMap (·.fields)).mapM (t.readField members)
  return assign fields read

/-- Without a superclass the fields of a class are its own. -/
theorem readWithin_top (steps : Nat) (fields : List (String × Value)) (h : p.superclass = none) :
    t.readWithin steps p members fields =
      (p.fields.mapM (t.readField members)).map (assign fields) := by
  -- The chain of a class without a superclass is the class alone, whatever the number of steps.
  have hchain : t.chainWithin steps p = .ok [p] := by
    cases steps with
    | zero => rfl
    | succ steps => rw [chainWithin, h]
  rw [readWithin, hchain]
  show (([p].flatMap (·.fields)).mapM (t.readField members) >>= _) = _
  rw [List.flatMap_singleton]
  cases p.fields.mapM (t.readField members) <;> rfl

/-- The own fields of a class are read after those of its superclass. -/
theorem readWithin_up {steps : Nat} {name : String} (fields : List (String × Value))
    (h : p.superclass = some name) :
    t.readWithin (steps + 1) p members fields = (do
      let above ← t.object name
      let fields ← t.readWithin steps above members fields
      (p.fields.mapM (t.readField members)).map (assign fields)) := by
  rw [readWithin, chainWithin, h]
  dsimp only
  cases t.object name with
  | error e => rfl
  | ok above =>
    -- All superclasses are looked up before the first field is read, on both sides.
    simp only [readWithin, bind, Except.bind]
    cases t.chainWithin steps above with
    | error e => rfl
    | ok plans =>
      -- The fields of the chain are those of the superclasses and then the own ones.
      have hfields : (plans ++ [p]).flatMap (·.fields) = plans.flatMap (·.fields) ++ p.fields := by
        rw [List.flatMap_append, List.flatMap_singleton]
      simp only [pure, Except.pure, hfields, List.mapM_append, bind, Except.bind]
      -- An error of the fields above comes first on both sides.
      cases (plans.flatMap (·.fields)).mapM (t.readField members) with
      | error e => rfl
      | ok read =>
        cases p.fields.mapM (t.readField members) with
        | error e => rfl
        -- Setting the fields one part after the other is setting them all.
        | ok own => exact congrArg Except.ok (assign_append fields read own)

/-- An object that has an instance is made of the fields that are read into an empty one. -/
private theorem decodeAs_eq (h : p.isAbstract = false) :
    t.decodeAs p members =
      (t.readWithin t.objects.length p members []).map (Value.object p.typeName) := by
  rw [decodeAs, h, if_neg Bool.false_ne_true, chainFields, chain, readWithin]
  cases t.chainWithin t.objects.length p with
  | error e => rfl
  | ok plans =>
    -- Making the object does not change whether the fields can be read.
    show ((plans.flatMap (·.fields)).mapM (t.readField members) >>= _) =
      ((plans.flatMap (·.fields)).mapM (t.readField members) >>= _).map _
    cases (plans.flatMap (·.fields)).mapM (t.readField members) <;> rfl

end CodecTable

namespace Calling

open CodecTable

variable {t : CodecTable} {call : CodecRef → Json → Calling Value}

/-! ### Maps -/

/-- Entries are collected as they are called for. -/
theorem returns_insertAll {α : Type} {as : List α}
    {entry : α → Calling ((Value × Value) × String)}
    {entry' : α → Except CodecError ((Value × Value) × String)}
    (h : ∀ a ∈ as, Returns (entry a) (entry' a)) (entries : List (Value × Value)) :
    Returns (insertAll entry as entries) (collect entry' as entries) := by
  induction as generalizing entries with
  | nil => exact .pure
  | cons a as ih =>
    rw [insertAll, collect]
    -- An entry is called for, added to the others, and then come the rest.
    refine (h a List.mem_cons_self).bind fun e _ => ?_
    refine Returns.done.bind fun entries _ => ?_
    exact ih (fun b hb => h b (List.mem_cons_of_mem a hb)) entries

variable {members : List (String × Json)}

/-- A call for a key returns what the key decodes to. -/
private theorem returns_decodeKey {key : Option CodecRef} {name : String}
    (h : ∀ c, Returns (call c (keyJson name)) (t.decodeJson c (keyJson name))) :
    Returns (decodeKey call key name) (t.decodeKey key name) := by
  cases key with
  | none => exact .pure
  | some c => exact h c

/-- Calls for the entries of a map return the map. -/
private theorem returns_entryMap {key : Option CodecRef} {value : CodecRef}
    (hkey : ∀ m ∈ members, ∀ c, Returns (call c (keyJson m.1)) (t.decodeJson c (keyJson m.1)))
    (hvalue : ∀ m ∈ members, Returns (call value m.2) (t.decodeJson value m.2)) :
    Returns (Value.map <$> insertAll (decodeEntry call key value) members [])
      ((collect (t.decodeEntry key value) members []).map .map) := by
  -- Each entry takes a call for its key and one for its value.
  refine (returns_insertAll (fun m hm => ?_) []).map
  refine (returns_decodeKey (hkey m hm)).bind fun k _ => ?_
  refine (hvalue m hm).bind fun v _ => ?_
  exact .pure

/-- Both forms of a map with arbitrary keys are read. -/
private theorem returns_decodePairedMap {key value : CodecRef}
    (hkey : ∀ j ∈ pairedKeys members, Returns (call key j) (t.decodeJson key j))
    (hvalue : ∀ values, pairedValues members = .ok values →
      ∀ j ∈ values, Returns (call value j) (t.decodeJson value j))
    (hname : ∀ m ∈ members, Returns (call key (.string m.1)) (t.decodeJson key (.string m.1)))
    (hmember : ∀ m ∈ members, Returns (call value m.2) (t.decodeJson value m.2)) :
    Returns (decodePairedMap call key value members)
      (t.decodeJson (.pairedMap key value) (.object members)) := by
  rw [decodePairedMap, decodeJson_pairedMap]
  split
  -- Two arrays of one length: a pair of keys and values at a time.
  · refine Returns.done.bind fun values hvalues => ?_
    split
    · exact .done
    · refine (returns_insertAll (fun e he => ?_) []).map
      have ⟨hk, hv⟩ := List.of_mem_zip (show (e.1, e.2) ∈ _ from he)
      refine (hkey e.1 hk).bind fun k _ => ?_
      refine (hvalue values hvalues e.2 hv).bind fun v _ => ?_
      exact .pure
  -- Members of an object: the name of each is decoded as a string.
  · refine (returns_insertAll (fun m hm => ?_) []).map
    refine (hname m hm).bind fun k _ => ?_
    refine (hmember m hm).bind fun v _ => ?_
    exact .pure

/-! ### Fields -/

-- The equations take a while to derive; this does it once, before the proofs that need them.
attribute [local simp] decode decodeObject readFields

/-- Whether the calls for the members of an object return what is read from them. -/
def MembersReturn (t : CodecTable) (call : CodecRef → Json → Calling Value)
    (members : List (String × Json)) : Prop :=
  ∀ name j, Json.member? members name = some j → ∀ c, Returns (call c j) (t.decodeJson c j)

/-- Calls for the own fields of a class return what setting them gives. -/
private theorem returns_readOwnFields (h : MembersReturn t call members) (fs : List FieldPlan)
    (fields : List (String × Value)) :
    Returns (readOwnFields call members fs fields)
      ((fs.mapM (t.readField members)).map (assign fields)) := by
  induction fs generalizing fields with
  | nil => exact .pure
  | cons f fs ih =>
    rw [readOwnFields, mapM_readField_cons]
    -- The first field is set before the others are called for.
    refine Returns.bind ?_ fun v _ => ih _
    -- A missing member takes no call.
    unfold readField memberValue
    cases hj : Json.member? members f.wireName with
    | none => exact .pure
    | some j => exact h f.wireName j hj f.encoding.codec

variable (ha : t.Acyclic) {p : ObjectPlan} {depth enough : Nat}

include ha

/-- Along the superclasses of a class there are fewer of them at every step, so steps for more than
there are above the class lead to the topmost one, or to a name without a codec. -/
private theorem returns_readFields {steps : Nat} (hp : t.object? p.typeName = some p)
    (hsteps : t.height p.typeName < steps) (hdepth : steps + enough ≤ depth)
    (h : ∀ depth, enough ≤ depth → MembersReturn t (decode t depth) members)
    (fields : List (String × Value)) :
    Returns (readFields t depth p members fields) (t.readWithin steps p members fields) := by
  -- By induction on the steps, which stay ahead of the height of the class.
  induction steps generalizing p depth fields with
  | zero => omega
  | succ steps ih =>
    obtain ⟨depth, rfl⟩ : ∃ d, depth = d + 1 := ⟨depth - 1, by omega⟩
    -- The own fields are read last, after those above have been set.
    have hown := returns_readOwnFields (h depth (by omega)) p.fields
    rw [readFields]
    -- Without a superclass there are only the own fields.
    cases hsuper : p.superclass with
    | none =>
      rw [readWithin_top _ fields hsuper]
      exact hown fields
    | some name =>
      rw [readWithin_up fields hsuper]
      -- The superclass is looked up, and one step less suffices for it.
      refine Returns.done.bind fun above habove => ?_
      have hq := object_eq_ok.1 habove
      have hname := typeName_of_object? hq
      have hlt := ha.height_lt ⟨p, hp, hsuper⟩ hq
      refine (ih (hname ▸ hq) (by rw [hname]; omega) (by omega) fields).bind fun fields _ => ?_
      exact hown fields

/-- An object that is not handed on is read through the codec of a class. -/
theorem returns_decodeObject_unchecked {name : String} (hp : t.object? name = some p)
    (hdepth : t.objects.length + enough < depth)
    (h : ∀ depth, enough ≤ depth → MembersReturn t (decode t depth) members) :
    Returns (decodeObject t depth p (.object members) false) (t.decodeAs p members) := by
  obtain ⟨depth, rfl⟩ : ∃ d, depth = d + 1 := ⟨depth - 1, by omega⟩
  have hname := typeName_of_object? hp
  -- The call for the fields has one level less to go.
  have hfields := returns_readFields ha (hname ▸ hp) (hname ▸ ha.height_lt_length hp)
    (show t.objects.length + enough ≤ depth by omega) h []
  rw [decodeObject]
  -- An abstract class reads as null, without any call.
  cases habstract : p.isAbstract with
  | true =>
    rw [decodeAs, habstract]
    exact .pure
  | false =>
    rw [decodeAs_eq habstract]
    exact hfields.map

/-- An object is handed on once at most. -/
private theorem returns_decodeObject_checked {name : String} (hp : t.object? name = some p)
    (hdepth : t.objects.length + enough + 1 < depth)
    (h : ∀ depth, enough ≤ depth → MembersReturn t (decode t depth) members) :
    Returns (decodeObject t depth p (.object members) true)
      (t.codecFor p members >>= fun q => t.decodeAs q members) := by
  obtain ⟨depth, rfl⟩ : ∃ d, depth = d + 1 := ⟨depth - 1, by omega⟩
  rw [decodeObject, codecFor]
  -- The tag may name a subtype, whose codec takes the object from there.
  cases htag : t.subtypeFor? p members with
  | some tag =>
    refine Returns.done.bind fun sub hq => ?_
    exact returns_decodeObject_unchecked ha (object_eq_ok.1 hq) (by omega) h
  | none =>
    -- The codec of the class itself goes on as if the type had not been checked.
    have hunchecked := returns_decodeObject_unchecked ha hp
      (show t.objects.length + enough < depth + 1 by omega) h
    rwa [decodeObject] at hunchecked

/-! ### JSON values -/

omit ha

/-- Whether lighter trees are decoded by calls, even if these are deeper than those for a tree by as
much as a class can need. -/
def LighterReturn (t : CodecTable) (depth weight : Nat) : Prop :=
  ∀ j, j.weight < weight → ∀ c below, depth ≤ below + t.objects.length + 2 →
    Returns (decode t below c j) (t.decodeJson c j)

namespace LighterReturn

/-- Lighter trees are decoded one level down. -/
theorem lighter {weight : Nat} (h : LighterReturn t depth weight) {j : Json}
    (hlt : j.weight < weight) (c : CodecRef) : Returns (decode t depth c j) (t.decodeJson c j) :=
  h j hlt c depth (by omega)

/-- The items of an array weigh less than the array, so calls for them return. -/
private theorem item {items : List Json} (h : LighterReturn t depth (Json.array items).weight)
    (c : CodecRef) : ∀ j ∈ items, Returns (decode t depth c j) (t.decodeJson c j) := by
  intro j hj
  have hle := Json.weight_le_of_mem hj
  refine h.lighter ?_ c
  rw [Json.weight]
  omega

variable (h : LighterReturn t depth (Json.object members).weight)

include h

/-- The members of an object weigh less than the object, so calls for them return. -/
theorem member (c : CodecRef) :
    ∀ m ∈ members, Returns (decode t depth c m.2) (t.decodeJson c m.2) := by
  intro m hm
  have hlt := Json.weight_lt_of_mem (show (m.1, m.2) ∈ members from hm)
  refine h.lighter ?_ c
  rw [Json.weight]
  omega

/-- What the name of a member stands for is lighter than the object, as the member has a value. -/
theorem name (c : CodecRef) : ∀ m ∈ members, ∀ j, j.weight ≤ m.1.length + 1 →
    Returns (decode t depth c j) (t.decodeJson c j) := by
  intro m hm j hle
  have hlt := Json.weight_lt_of_mem (show (m.1, m.2) ∈ members from hm)
  have hpos := m.2.weight_pos
  refine h.lighter ?_ c
  rw [Json.weight]
  omega

/-- The members of an object are decoded behind the calls for its class. -/
theorem membersReturn :
    ∀ below, depth - t.objects.length - 2 ≤ below → MembersReturn t (decode t below) members := by
  intro below hbelow name j hj c
  have hlt := Json.weight_lt_of_mem (Json.mem_of_member? hj)
  refine h j ?_ c below (by omega)
  rw [Json.weight]
  omega

/-- The keys of the paired form weigh less than the object, so calls for them return. -/
private theorem pairedKey (c : CodecRef) :
    ∀ j ∈ pairedKeys members, Returns (decode t depth c j) (t.decodeJson c j) := by
  intro j hj
  have hle := Json.weight_le_of_mem hj
  have hkeys := weight_pairedKeys members
  refine h.lighter ?_ c
  rw [Json.weight]
  omega

/-- The values of the paired form weigh less than the object, so calls for them return. -/
private theorem pairedValue (c : CodecRef) : ∀ values, pairedValues members = .ok values →
    ∀ j ∈ values, Returns (decode t depth c j) (t.decodeJson c j) := by
  intro values hvalues j hj
  have hle := Json.weight_le_of_mem hj
  have hweight := weight_pairedValues hvalues
  refine h.lighter ?_ c
  rw [Json.weight]
  omega

end LighterReturn

section Step

variable {j : Json} (h : LighterReturn t depth j.weight)

include h

/-- A call for a container returns what its items decode to. -/
private theorem returns_decode_sequence (shape : Shape) (element : CodecRef) :
    Returns (decode t (depth + 1) (.sequence shape element) j)
      (t.decodeJson (.sequence shape element) j) := by
  cases j with
  | array items =>
    rw [decodeJson_sequence, decode]
    exact (Returns.mapM (h.item element)).map
  -- Anything but an array is refused or read as null without a call.
  | _ =>
    rw [decode.eq_def, decodeJson.eq_def]
    exact .done

/-- A call for a map with textual keys returns what its members decode to. -/
private theorem returns_decode_textKeyMap (value : CodecRef) :
    Returns (decode t (depth + 1) (.textKeyMap value) j)
      (t.decodeJson (.textKeyMap value) j) := by
  cases j with
  | object members =>
    rw [decodeJson_textKeyMap, decode]
    exact returns_entryMap (fun m hm c => h.name c m hm _ (weight_keyJson m.1)) (h.member value)
  | _ =>
    rw [decode.eq_def, decodeJson.eq_def]
    exact .done

/-- A call for a map with parsed keys returns what its members decode to. -/
private theorem returns_decode_parsedKeyMap (key value : CodecRef) :
    Returns (decode t (depth + 1) (.parsedKeyMap key value) j)
      (t.decodeJson (.parsedKeyMap key value) j) := by
  cases j with
  | object members =>
    rw [decodeJson_parsedKeyMap, decode]
    exact returns_entryMap (fun m hm c => h.name c m hm _ (weight_keyJson m.1)) (h.member value)
  | _ =>
    rw [decode.eq_def, decodeJson.eq_def]
    exact .done

/-- A call for a map in the paired form returns what its keys and values decode to. -/
private theorem returns_decode_pairedMap (key value : CodecRef) :
    Returns (decode t (depth + 1) (.pairedMap key value) j)
      (t.decodeJson (.pairedMap key value) j) := by
  cases j with
  | object members =>
    rw [decode]
    refine returns_decodePairedMap (h.pairedKey key) (h.pairedValue value) (fun m hm => ?_)
      (h.member value)
    refine h.name key m hm _ ?_
    rw [Json.weight, Nat.add_comm]
  | _ =>
    rw [decode.eq_def, decodeJson.eq_def]
    exact .done

include ha

variable (hdepth : (t.objects.length + 3) * j.weight ≤ depth + 1)

include hdepth

omit ha h in
/-- A tree leaves room for the calls of a class. -/
theorem room_of_tree : t.objects.length + 1 < depth := by
  have hone : (t.objects.length + 3) * 1 ≤ (t.objects.length + 3) * j.weight :=
    Nat.mul_le_mul_left _ j.weight_pos
  omega

/-- A reference to a class calls its codec, which reads null and refuses anything but an object. -/
private theorem returns_decode_generated (name : String) :
    Returns (decode t (depth + 1) (.generated name) j) (t.decodeJson (.generated name) j) := by
  have hroom := room_of_tree hdepth
  -- The name is that of a class, of an enum, or of neither.
  cases hp : t.object? name with
  | some p =>
    cases j with
    | object members =>
      rw [decodeJson_generated hp, decode, hp]
      exact returns_decodeObject_checked ha hp (by omega) h.membersReturn
    -- Anything but an object is refused or read as null by the codec of the class.
    | _ =>
      obtain ⟨depth, rfl⟩ : ∃ d, depth = d + 1 := ⟨depth - 1, by omega⟩
      rw [decode, decodeJson, hp]
      exact .done
  | none =>
    rw [decode, decodeJson, hp]
    cases t.enum? name <;> exact .done

/-- Without a declared type an object is read through the codec of the class that it says it is of,
or else as a map. -/
private theorem returns_decode_any :
    Returns (decode t (depth + 1) .any j) (t.decodeJson .any j) := by
  have hroom := room_of_tree hdepth
  cases j with
  | array items =>
    rw [decode, decodeJson, decodeItems_eq]
    exact (Returns.mapM (h.item .any)).map
  | object members =>
    -- The tag may name a class that the table knows.
    cases htag : t.taggedObject? members with
    | some p =>
      obtain ⟨j', -, hj'⟩ := Option.bind_eq_some_iff.1 htag
      obtain ⟨tag, -, hp⟩ := Option.bind_eq_some_iff.1 hj'
      rw [decodeJson_any_tagged htag, decode, htag]
      exact returns_decodeObject_unchecked ha hp (by omega) h.membersReturn
    -- Without such a tag the object is read as a map, member by member.
    | none =>
      rw [decode, decodeJson, htag, decodeMembers_eq]
      exact (Returns.mapM fun m hm => (h.member .any m hm).map).map
  | _ =>
    rw [decode.eq_def, decodeJson.eq_def]
    exact .done

/-- Where lighter trees are decoded, so is the tree. -/
private theorem returns_decode_step (c : CodecRef) :
    Returns (decode t (depth + 1) c j) (t.decodeJson c j) := by
  -- Leaves are read without a further call.
  cases c with
  | scalar s =>
    rw [decode, decodeJson]
    exact .done
  | string =>
    rw [decode, decodeJson]
    exact .done
  | date =>
    rw [decode, decodeJson]
    exact .done
  | timestamp =>
    rw [decode, decodeJson]
    exact .done
  | localDate =>
    rw [decode, decodeJson]
    exact .done
  -- The other codecs call for parts of the tree or for the codec of a class.
  | sequence shape element => exact returns_decode_sequence h shape element
  | textKeyMap value => exact returns_decode_textKeyMap h value
  | parsedKeyMap key value => exact returns_decode_parsedKeyMap h key value
  | pairedMap key value => exact returns_decode_pairedMap h key value
  | generated name => exact returns_decode_generated ha h hdepth name
  | any => exact returns_decode_any ha h hdepth

end Step

include ha

/-- The calls that decode a JSON value come to an end. -/
theorem returns_decode (c : CodecRef) (j : Json)
    (hdepth : (t.objects.length + 3) * j.weight ≤ depth) :
    Returns (decode t depth c j) (t.decodeJson c j) := by
  induction hj : j.weight using Nat.strongRecOn generalizing c j depth with
  | ind weight ih =>
    subst hj
    have hpos : 0 < depth := Nat.lt_of_lt_of_le (Nat.mul_pos (by omega) j.weight_pos) hdepth
    obtain ⟨depth, rfl⟩ : ∃ d, depth = d + 1 := ⟨depth - 1, by omega⟩
    refine returns_decode_step ha (fun j' hlt c below hbelow => ?_) hdepth c
    -- A lighter tree makes up for all calls between a tree and what is read of it.
    have hweight : (t.objects.length + 3) * (j'.weight + 1) ≤ (t.objects.length + 3) * j.weight :=
      Nat.mul_le_mul_left _ hlt
    rw [Nat.mul_succ] at hweight
    exact ih j'.weight hlt c j' (by omega) rfl

/-- The calls that read a text come to an end. -/
theorem returns_decodeText {c : CodecRef} {text : String}
    (hdepth : (t.objects.length + 3) * (text.length + 1) ≤ depth) :
    Returns (decodeText t depth c text) (t.decode c text) := by
  unfold decodeText CodecTable.decode
  cases hj : Json.parse text with
  | ok j =>
    -- The tree weighs at most one more than the text has characters.
    have hweight : (t.objects.length + 3) * j.weight ≤ (t.objects.length + 3) * (text.length + 1) :=
      Nat.mul_le_mul_left _ (Json.weight_le_of_parse hj)
    exact returns_decode ha c j (Nat.le_trans hweight hdepth)
  | error e => exact .done

end Calling

end GraphCodec
