import GraphCodec.Codec.Decode
import GraphCodec.Proofs.Except

/-!
# What decoding does

The parts of a JSON value are decoded one by one.  Elements and fields are traversals of
`decodeJson`; the entries of a map are collected one after another (`CodecTable.collect`), whichever
of the three written forms the map has.  A collection fails where one of its entries fails or
repeats a key (`CodecTable.collect_eq_error`), and otherwise holds all entries in order, no two of
them with equal keys (`CodecTable.collect_eq_ok`).
-/

namespace GraphCodec

namespace CodecTable

variable {t : CodecTable}

/-! ### Collecting entries -/

/-- Collects the entries that some things are read as, with a text for each in messages. -/
def collect {α : Type} (entry : α → Except CodecError ((Value × Value) × String)) (as : List α)
    (entries : List (Value × Value)) : Except CodecError (List (Value × Value)) :=
  match as with
  | [] => .ok entries.reverse
  | a :: rest => do
    let e ← entry a
    collect entry rest (← addEntry entries e.1.1 e.1.2 e.2)

section Collect

variable {α : Type} {entry : α → Except CodecError ((Value × Value) × String)} {as : List α}
  {entries : List (Value × Value)}

/-- A collection fails where an entry cannot be read or repeats a key. -/
theorem collect_eq_error {e : CodecError} (h : collect entry as entries = .error e) :
    (∃ a ∈ as, entry a = .error e) ∨ ∃ text, e = .duplicateKey text := by
  induction as generalizing entries with
  | nil => cases h
  | cons a rest ih =>
    -- An entry is read, its key is compared with those before, and the rest is collected.
    rw [collect, Except.bind_eq_error] at h
    rcases h with h | ⟨_, _, h⟩
    · exact Or.inl ⟨a, List.mem_cons_self, h⟩
    · rcases Except.bind_eq_error.1 h with h | ⟨_, _, h⟩
      -- The key is equal to that of an entry before it.
      · unfold addEntry at h
        split at h
        · cases h
          exact Or.inr ⟨_, rfl⟩
        · cases h
      · rcases ih h with ⟨a', ha', h⟩ | h
        · exact Or.inl ⟨a', List.mem_cons_of_mem _ ha', h⟩
        · exact Or.inr h

/-- An entry is added exactly if no entry has an equal key. -/
private theorem addEntry_eq_ok {e : Value × Value} {text : String} {all : List (Value × Value)} :
    addEntry entries e.1 e.2 text = .ok all ↔
      (∀ x ∈ entries, x.1.same e.1 = false) ∧ all = e :: entries := by
  have hany : (∀ x ∈ entries, x.1.same e.1 = false) ↔ entries.any (·.1.same e.1) = false := by simp
  rw [hany, addEntry]
  cases entries.any (·.1.same e.1) with
  | true => simp
  | false => simp [@eq_comm _ all]

/-- A collection behind some entries is those entries, which were last first, and then one for each
thing that is read, with a key that differs from those of all entries in front of it. -/
private theorem collect_behind_eq_ok {collected : List (Value × Value)} :
    collect entry as entries = .ok collected ↔
      ∃ new, collected = entries.reverse ++ new ∧
        (∀ x ∈ entries, ∀ e ∈ new, x.1.same e.1 = false) ∧
        (new.Pairwise fun e e' => e.1.same e'.1 = false) ∧
        List.Forall₂ (fun a e => ∃ text, entry a = .ok (e, text)) as new := by
  -- The collected entries grow with each step, so the statement is about any of them.
  induction as generalizing entries with
  | nil => simp [collect, @eq_comm _ collected]
  | cons a rest ih =>
    simp only [collect, Except.bind_eq_ok, addEntry_eq_ok, ih]
    constructor
    -- The entry that is read first is the first of the new ones, and its key differs from the later
    -- ones.
    · rintro ⟨⟨e, text⟩, ha, _, ⟨hfresh, rfl⟩, new, rfl, hold, hnew, hread⟩
      obtain ⟨hhead, htail⟩ := List.forall_mem_cons.1 hold
      refine ⟨e :: new, by simp, fun x hx => ?_, hnew.cons hhead, .cons ⟨text, ha⟩ hread⟩
      exact List.forall_mem_cons.2 ⟨hfresh x hx, htail x hx⟩
    -- Conversely the first of the new entries is the one that is read first.
    · rintro ⟨_, rfl, hold, hnew, hread⟩
      obtain ⟨e, new, ⟨text, ha⟩, hrest, rfl⟩ := List.forall₂_cons_left_iff.1 hread
      obtain ⟨hhead, hnew⟩ := List.pairwise_cons.1 hnew
      refine ⟨(e, text), ha, _, ⟨fun x hx => hold x hx e List.mem_cons_self, rfl⟩, new, by simp,
        ?_, hnew, hrest⟩
      exact List.forall_mem_cons.2
        ⟨hhead, fun x hx e' he' => hold x hx e' (List.mem_cons_of_mem e he')⟩

/-- A collection holds one entry for each thing, in order, and refuses equal keys. -/
theorem collect_eq_ok :
    collect entry as [] = .ok entries ↔
      (entries.Pairwise fun e e' => e.1.same e'.1 = false) ∧
        List.Forall₂ (fun a e => ∃ text, entry a = .ok (e, text)) as entries := by
  simp [collect_behind_eq_ok]

/-- An entry is read if its key and its value are. -/
theorem exists_entry_eq_ok {x y : Except CodecError Value} {e : Value × Value} {name : String} :
    (∃ text, (do let k ← x; let v ← y; return ((k, v), name) :
      Except CodecError ((Value × Value) × String)) = .ok (e, text)) ↔
        x = .ok e.1 ∧ y = .ok e.2 := by
  -- The key is read before the value, and nothing else can fail.
  cases x with
  | error => simp [bind, Except.bind]
  | ok k =>
    cases y with
    | error => simp [bind, Except.bind]
    | ok w => simp [bind, Except.bind, pure, Except.pure, Prod.ext_iff]

end Collect

/-! ### Parts -/

-- The equations take a while to derive; this does it once, before the proofs that need them.
attribute [local simp] decodeJson decodeItems decodeEntries decodePairs decodeNamedPairs readFields
  decodeMembers

/-- Items are decoded one by one. -/
theorem decodeItems_eq (c : CodecRef) (items : List Json) :
    t.decodeItems c items = items.mapM (t.decodeJson c) := by
  induction items with
  | nil =>
    rw [decodeItems]
    rfl
  | cons j rest ih =>
    rw [decodeItems, List.mapM_cons, ih]

/-- The key that the name of a member stands for. -/
def decodeKey (t : CodecTable) (key : Option CodecRef) (name : String) :
    Except CodecError Value :=
  match key with
  | none => .ok (.string name)
  | some c => t.decodeJson c (keyJson name)

/-- The entry that a member stands for. -/
def decodeEntry (t : CodecTable) (key : Option CodecRef) (value : CodecRef) (m : String × Json) :
    Except CodecError ((Value × Value) × String) := do
  let k ← t.decodeKey key m.1
  let v ← t.decodeJson value m.2
  return ((k, v), m.1)

/-- The entries of a map are collected from the members one by one. -/
private theorem decodeEntries_eq (key : Option CodecRef) (value : CodecRef)
    (members : List (String × Json)) (entries : List (Value × Value)) :
    t.decodeEntries key value members entries =
      collect (t.decodeEntry key value) members entries := by
  induction members generalizing entries with
  | nil => rw [decodeEntries, collect]
  | cons m rest ih =>
    obtain ⟨name, j⟩ := m
    -- The rest is collected from whatever entries there are then.
    have hrest : t.decodeEntries key value rest = collect (t.decodeEntry key value) rest :=
      funext ih
    rw [decodeEntries.eq_def, collect, decodeEntry]
    dsimp only
    rw [hrest]
    -- A textual key is read as it is, and a parsed one by its codec.
    cases key with
    | none =>
      rw [decodeKey]
      cases t.decodeJson value j <;> rfl
    | some c =>
      rw [decodeKey]
      dsimp only
      cases t.decodeJson c (keyJson name) with
      | error e => rfl
      | ok k => cases t.decodeJson value j <;> rfl

/-- The entry that a key and a value stand for. -/
def decodePair (t : CodecTable) (key value : CodecRef) (p : Json × Json) :
    Except CodecError ((Value × Value) × String) := do
  let k ← t.decodeJson key p.1
  let v ← t.decodeJson value p.2
  return ((k, v), p.1.render)

/-- The entries of a map are collected from pairs of a key and a value one by one. -/
private theorem decodePairs_eq (key value : CodecRef) (keys values : List Json)
    (entries : List (Value × Value)) :
    t.decodePairs key value keys values entries =
      collect (t.decodePair key value) (keys.zip values) entries := by
  induction keys generalizing values entries with
  -- Without a further key nothing is paired, however many values are left.
  | nil => simp [collect]
  | cons kj keys ih =>
    cases values with
    | nil => simp [collect]
    | cons vj values =>
      -- The rest is collected from whatever entries there are then.
      have hrest : t.decodePairs key value keys values =
          collect (t.decodePair key value) (keys.zip values) := funext (ih values)
      rw [decodePairs, List.zip_cons_cons, collect, decodePair, hrest]
      cases t.decodeJson key kj with
      | error e => rfl
      | ok k => cases t.decodeJson value vj <;> rfl

/-- The entry that a member stands for whose name is decoded as a text. -/
def decodeNamedPair (t : CodecTable) (key value : CodecRef) (m : String × Json) :
    Except CodecError ((Value × Value) × String) := do
  let k ← t.decodeJson key (.string m.1)
  let v ← t.decodeJson value m.2
  return ((k, v), m.1)

/-- The entries of a map are collected from named members one by one. -/
private theorem decodeNamedPairs_eq (key value : CodecRef) (members : List (String × Json))
    (entries : List (Value × Value)) :
    t.decodeNamedPairs key value members entries =
      collect (t.decodeNamedPair key value) members entries := by
  induction members generalizing entries with
  | nil => rw [decodeNamedPairs, collect]
  | cons m rest ih =>
    obtain ⟨name, j⟩ := m
    -- The rest is collected from whatever entries there are then.
    have hrest : t.decodeNamedPairs key value rest =
        collect (t.decodeNamedPair key value) rest := funext ih
    rw [decodeNamedPairs, collect, decodeNamedPair, hrest]
    dsimp only
    cases t.decodeJson key (.string name) with
    | error e => rfl
    | ok k => cases t.decodeJson value j <;> rfl

/-- The name and value of a field that is read from the members of an object. -/
def readField (t : CodecTable) (members : List (String × Json)) (f : FieldPlan) :
    Except CodecError (String × Value) :=
  match Json.member? members f.wireName with
  | none => .ok (f.name, fieldValue f .null)
  | some j => (t.decodeJson f.encoding.codec j).map fun v => (f.name, fieldValue f v)

/-- Fields are read one by one. -/
theorem readFields_eq (members : List (String × Json)) (fields : List FieldPlan) :
    t.readFields members fields = fields.mapM (t.readField members) := by
  induction fields with
  | nil =>
    rw [readFields]
    rfl
  | cons f rest ih =>
    rw [readFields, List.mapM_cons, readField]
    split
    -- A missing member reads as null.
    case h_1 hm =>
      rw [hm, ih]
      rfl
    -- A member that is there is decoded by the codec of the field.
    case h_2 j hm =>
      rw [hm, ih]
      dsimp only
      cases t.decodeJson f.encoding.codec j <;> rfl

/-- The members of an object without a declared type are decoded one by one. -/
theorem decodeMembers_eq (members : List (String × Json)) :
    t.decodeMembers members =
      members.mapM fun m => (t.decodeJson .any m.2).map (Value.string m.1, ·) := by
  induction members with
  | nil =>
    rw [decodeMembers]
    rfl
  | cons m rest ih =>
    obtain ⟨name, j⟩ := m
    rw [decodeMembers, List.mapM_cons, ih]
    dsimp only
    cases t.decodeJson .any j <;> rfl

/-- Reads the fields of a class from the members of an object; an abstract class has no instance. -/
def decodeAs (t : CodecTable) (p : ObjectPlan) (members : List (String × Json)) :
    Except CodecError Value :=
  if p.isAbstract then .ok .null
  else do
    let fields ← t.chainFields p
    let read ← fields.mapM (t.readField members)
    return .object p.typeName (assign [] read)

/-! ### Codecs -/

/-- The values of decoded elements as a sequence. -/
theorem decodeJson_sequence (shape : Shape) (element : CodecRef) (items : List Json) :
    t.decodeJson (.sequence shape element) (.array items) =
      (items.mapM (t.decodeJson element)).map fun vs =>
        .sequence shape (if shape = .set then Value.distinct vs else vs) := by
  rw [decodeJson, decodeItems_eq]
  cases items.mapM (t.decodeJson element) <;> rfl

/-- A map with textual keys is collected from the members of an object. -/
theorem decodeJson_textKeyMap (value : CodecRef) (members : List (String × Json)) :
    t.decodeJson (.textKeyMap value) (.object members) =
      (collect (t.decodeEntry none value) members []).map .map := by
  rw [decodeJson, decodeEntries_eq]

/-- A map with parsed keys is collected from the members of an object. -/
theorem decodeJson_parsedKeyMap (key value : CodecRef) (members : List (String × Json)) :
    t.decodeJson (.parsedKeyMap key value) (.object members) =
      (collect (t.decodeEntry (some key) value) members []).map .map := by
  rw [decodeJson, decodeEntries_eq]

/-- A map with arbitrary keys is read from two arrays of one length, or else from members. -/
theorem decodeJson_pairedMap (key value : CodecRef) (members : List (String × Json)) :
    t.decodeJson (.pairedMap key value) (.object members) =
      if isPairedForm members then do
        let values ← pairedValues members
        if (pairedKeys members).length ≠ values.length then
          .error (.mismatchedMapArrays (pairedKeys members).length values.length)
        else
          (collect (t.decodePair key value) ((pairedKeys members).zip values) []).map .map
      else (collect (t.decodeNamedPair key value) members []).map .map := by
  rw [decodeJson, decodeNamedPairs_eq]
  split
  -- The values may be of another form than an array, or their number not that of the keys.
  · split
    case h_1 e he =>
      rw [he]
      rfl
    case h_2 values hvalues =>
      rw [hvalues, decodePairs_eq]
      rfl
  · rfl

/-- Reading the fields of a class, as the codecs of objects do it. -/
private theorem readAs_eq (q : ObjectPlan) (members : List (String × Json)) :
    (if q.isAbstract then return .null
      else do
        let read ← t.readFields members (← t.chainFields q)
        return .object q.typeName (assign [] read) : Except CodecError Value) =
      t.decodeAs q members := by
  rw [decodeAs]
  -- An abstract class reads as null on both sides.
  split
  · rfl
  · cases t.chainFields q with
    | error e => rfl
    -- The fields of the whole chain are read in one go.
    | ok fields =>
      show (t.readFields members fields >>= _) = _
      rw [readFields_eq]
      rfl

/-- An object is read through the class that its tag selects. -/
theorem decodeJson_generated {name : String} {p : ObjectPlan} (h : t.object? name = some p)
    (members : List (String × Json)) :
    t.decodeJson (.generated name) (.object members) =
      t.codecFor p members >>= fun q => t.decodeAs q members := by
  rw [decodeJson]
  simp only [h]
  cases t.codecFor p members with
  | error e => rfl
  | ok q => exact readAs_eq q members

/-- An object without a declared type is read through the class that it says it is of. -/
theorem decodeJson_any_tagged {p : ObjectPlan} {members : List (String × Json)}
    (h : t.taggedObject? members = some p) :
    t.decodeJson .any (.object members) = t.decodeAs p members := by
  rw [decodeJson]
  simp only [h]
  exact readAs_eq p members

/-- An object that does not say what class it is of is read as a map, member by member. -/
theorem decodeJson_any_untagged {members : List (String × Json)}
    (h : t.taggedObject? members = none) :
    t.decodeJson .any (.object members) =
      (members.mapM (fun m => (t.decodeJson .any m.2).map (Value.string m.1, ·))).map
        .map := by
  rw [decodeJson]
  simp only [h]
  rw [decodeMembers_eq]

/-- Without a declared type an array is read as a list. -/
theorem decodeJson_any_array (items : List Json) :
    t.decodeJson .any (.array items) =
      (items.mapM (t.decodeJson .any)).map (.sequence .list) := by
  rw [decodeJson, decodeItems_eq]

end CodecTable

end GraphCodec
