import GraphCodec.Codec.Table
import GraphCodec.Codec.Leaf
import GraphCodec.Json.Weight

/-!
# Decoding

`CodecTable.decodeJson` reads a JSON value through a codec reference, and `CodecTable.decode` reads
a text.

An object is read through the codec of its declared type.  If that type has subtypes and the first
member that carries a type names one of them, the object is handed on to the codec of that subtype.
A type that is abstract reads as null.  A field takes the first member of its wire name; a member
that is missing reads as null, and null clears a field or sets a primitive one to zero.

Decoding goes down in the JSON value.  The name of a member of a map can be parsed as a value of
its own, which weighs less than the object it is a name in.
-/

namespace GraphCodec

namespace CodecTable

/-- The value that the name of a member stands for as a key: the JSON value it is the text of, or
else the name itself. -/
def keyJson (name : String) : Json :=
  match Json.parse name with
  | .ok j => j
  | .error _ => .string name

/-- What the name of a member parses to weighs at most one more than the name has characters. -/
theorem weight_keyJson (name : String) : (keyJson name).weight ≤ name.length + 1 := by
  unfold keyJson
  split
  · rename_i j h
    exact Json.weight_le_of_parse h
  -- A name that does not parse stands for itself.
  · simp only [Json.weight]; omega

/-- The codec to which an object of a declared type is handed on because of its tag, if there is
one. -/
def subtypeFor? (t : CodecTable) (p : ObjectPlan) (members : List (String × Json)) :
    Option String :=
  if p.hasSubtypes then do
    let tag ← (← Json.member? members t.tagMember).text?
    if tag ≠ p.typeName ∧ p.knowsSubtype tag then some tag else none
  else none

/-- The codec that reads an object of a declared type. -/
def codecFor (t : CodecTable) (p : ObjectPlan) (members : List (String × Json)) :
    Except CodecError ObjectPlan :=
  match t.subtypeFor? p members with
  | some name => t.object name
  | none => .ok p

/-- The class that an object of undeclared type says it is of, if the table has it. -/
def taggedObject? (t : CodecTable) (members : List (String × Json)) : Option ObjectPlan := do
  t.object? (← (← Json.member? members t.tagMember).text?)

/-- Whether the members are two arrays of keys and values. -/
def isPairedForm (members : List (String × Json)) : Bool :=
  (match Json.member? members "keys" with
    | some (.array _) => true
    | _ => false) &&
  members.all fun m => m.1 = "keys" || m.1 = "values"

/-- The elements of the array of keys. -/
def pairedKeys (members : List (String × Json)) : List Json :=
  match Json.member? members "keys" with
  | some (.array keys) => keys
  | _ => []

/-- The elements of the array of values, which may be missing or null. -/
def pairedValues (members : List (String × Json)) : Except CodecError (List Json) :=
  match Json.member? members "values" with
  | some (.array values) => .ok values
  | none | some .null => .ok []
  | some j => CodecError.unexpected (.sequence .array) j

/-- The keys of the paired form stand in the object and weigh at most as much as its members. -/
theorem weight_pairedKeys (members : List (String × Json)) :
    Json.weightItems (pairedKeys members) ≤ Json.weightMembers members := by
  unfold pairedKeys
  split
  · rename_i keys h
    -- The items are one level below the array that the member holds.
    have := Json.weight_lt_of_mem (Json.mem_of_member? h)
    simp only [Json.weight] at this
    omega
  -- Without a member `keys` there are no keys to weigh.
  · simp [Json.weightItems]

/-- The values of the paired form weigh at most as much as the members of the object. -/
theorem weight_pairedValues {members : List (String × Json)} {values : List Json}
    (h : pairedValues members = .ok values) :
    Json.weightItems values ≤ Json.weightMembers members := by
  unfold pairedValues at h
  split at h
  -- An array of values stands in a member of the object.
  · rename_i js hm
    have := Json.weight_lt_of_mem (Json.mem_of_member? hm)
    simp only [Except.ok.injEq] at h
    subst h
    simp only [Json.weight] at this
    omega
  -- No values or a null stand for the empty list.
  · simp only [Except.ok.injEq] at h
    subst h
    simp [Json.weightItems]
  · simp only [Except.ok.injEq] at h
    subst h
    simp [Json.weightItems]
  · simp [CodecError.unexpected] at h

/-- The value of a number without a declared type: an integer of 32 or 64 bits, or a double. -/
def numberValue (n : Json.Number) : Value :=
  match n.int64? with
  | some i => if (Scalar.int.inRange? i).isSome then .int (.ofInt i) else .long (.ofInt i)
  | none => .double n.toDouble

/-- The value of a field that was read: null becomes zero in a primitive field. -/
def fieldValue (f : FieldPlan) (v : Value) : Value :=
  match f.encoding.primitive? with
  | some s => s.orZero v
  | none => v

/-- Sets the fields of an object to the values that were read, in order. -/
def assign (fields read : List (String × Value)) : List (String × Value) :=
  read.foldl (fun fields (name, v) => Value.setField fields name v) fields

/-- Adds an entry to the entries of a map, last first; an equal key must not be there. -/
def addEntry (entries : List (Value × Value)) (k v : Value) (text : String) :
    Except CodecError (List (Value × Value)) :=
  if entries.any (·.1.same k) then .error (.duplicateKey text) else .ok ((k, v) :: entries)

mutual

/-- Reads a JSON value through a codec reference. -/
def decodeJson (t : CodecTable) (c : CodecRef) (j : Json) : Except CodecError Value :=
  match c with
  | .scalar s => s.decode j
  | .string => Codec.decodeString j
  | .date => Codec.decodeDate j
  | .timestamp => Codec.decodeTimestamp j
  | .localDate => Codec.decodeLocalDate j
  | .sequence shape element =>
    match j with
    | .null => .ok .null
    | .array items => do
      let values ← t.decodeItems element items
      return .sequence shape (if shape = .set then Value.distinct values else values)
    | j => CodecError.unexpected (.sequence shape) j
  | .textKeyMap value =>
    match j with
    | .null => .ok .null
    | .object members => (t.decodeEntries none value members []).map .map
    | j => CodecError.unexpected .map j
  | .parsedKeyMap key value =>
    match j with
    | .null => .ok .null
    | .object members => (t.decodeEntries (some key) value members []).map .map
    | j => CodecError.unexpected .map j
  | .pairedMap key value =>
    match j with
    | .null => .ok .null
    | .object members =>
      if isPairedForm members then
        match _h : pairedValues members with
        | .error e => .error e
        | .ok values =>
          if (pairedKeys members).length ≠ values.length then
            .error (.mismatchedMapArrays (pairedKeys members).length values.length)
          else (t.decodePairs key value (pairedKeys members) values []).map .map
      else (t.decodeNamedPairs key value members []).map .map
    | j => CodecError.unexpected .map j
  | .generated name =>
    match t.object? name, t.enum? name with
    | some p, _ =>
      match j with
      | .null => .ok .null
      | .object members => do
        let p ← t.codecFor p members
        if p.isAbstract then return .null
        let read ← t.readFields members (← t.chainFields p)
        return .object p.typeName (assign [] read)
      | j => CodecError.unexpected .object j
    | none, some p => p.decode j
    | none, none => .error (.unknownCodec name)
  | .any =>
    match j with
    | .null => .ok .null
    | .bool b => .ok (.boolean b)
    | .number n => .ok (numberValue n)
    | .string s => .ok (.string s)
    | .array items => (t.decodeItems .any items).map (.sequence .list)
    | .object members =>
      match t.taggedObject? members with
      | some p => do
        if p.isAbstract then return .null
        let read ← t.readFields members (← t.chainFields p)
        return .object p.typeName (assign [] read)
      | none => (t.decodeMembers members).map .map
termination_by (2 * j.weight, 0)
decreasing_by
  all_goals simp only [Json.weight]
  all_goals try (apply Prod.Lex.left; omega)
  have := weight_pairedKeys members
  have := weight_pairedValues _h
  apply Prod.Lex.left
  omega

/-- Reads the elements of an array. -/
def decodeItems (t : CodecTable) (c : CodecRef) (items : List Json) :
    Except CodecError (List Value) :=
  match items with
  | [] => .ok []
  | j :: rest => do
    let v ← t.decodeJson c j
    let vs ← t.decodeItems c rest
    return v :: vs
termination_by (2 * Json.weightItems items + 1, 0)
decreasing_by
  all_goals
    have := Json.weight_pos j
    simp only [Json.weightItems]
    apply Prod.Lex.left; omega

/-- Reads members as entries of a map; without a codec for keys, the name is the key. -/
def decodeEntries (t : CodecTable) (key : Option CodecRef) (value : CodecRef)
    (members : List (String × Json)) (entries : List (Value × Value)) :
    Except CodecError (List (Value × Value)) :=
  match members with
  | [] => .ok entries.reverse
  | (name, j) :: rest => do
    let k ← match key with
      | none => .ok (.string name)
      | some c => t.decodeJson c (keyJson name)
    let v ← t.decodeJson value j
    t.decodeEntries key value rest (← addEntry entries k v name)
termination_by (2 * Json.weightMembers members + 1, 0)
decreasing_by
  all_goals
    have := Json.weight_pos j
    have := weight_keyJson name
    simp only [Json.weightMembers]
    apply Prod.Lex.left; omega

/-- Reads keys and values from two arrays as entries of a map. -/
def decodePairs (t : CodecTable) (key value : CodecRef) (keys values : List Json)
    (entries : List (Value × Value)) : Except CodecError (List (Value × Value)) :=
  match keys, values with
  | kj :: keys, vj :: values => do
    let k ← t.decodeJson key kj
    let v ← t.decodeJson value vj
    t.decodePairs key value keys values (← addEntry entries k v kj.render)
  | _, _ => .ok entries.reverse
termination_by (2 * max (Json.weightItems keys) (Json.weightItems values) + 1, 0)
decreasing_by
  all_goals
    have := Json.weight_pos kj
    have := Json.weight_pos vj
    simp only [Json.weightItems]
    apply Prod.Lex.left; omega

/-- Reads members as entries of a map whose keys are the names as texts. -/
def decodeNamedPairs (t : CodecTable) (key value : CodecRef) (members : List (String × Json))
    (entries : List (Value × Value)) : Except CodecError (List (Value × Value)) :=
  match members with
  | [] => .ok entries.reverse
  | (name, j) :: rest => do
    let k ← t.decodeJson key (.string name)
    let v ← t.decodeJson value j
    t.decodeNamedPairs key value rest (← addEntry entries k v name)
termination_by (2 * Json.weightMembers members + 1, 0)
decreasing_by
  all_goals
    have := Json.weight_pos j
    simp only [Json.weightMembers, Json.weight]
    apply Prod.Lex.left; omega

/-- Reads the values of fields from the members of an object, in order. -/
def readFields (t : CodecTable) (members : List (String × Json)) (fields : List FieldPlan) :
    Except CodecError (List (String × Value)) :=
  match fields with
  | [] => .ok []
  | f :: rest =>
    match _h : Json.member? members f.wireName with
    | none => do
      let read ← t.readFields members rest
      return (f.name, fieldValue f .null) :: read
    | some j => do
      let v ← t.decodeJson f.encoding.codec j
      let read ← t.readFields members rest
      return (f.name, fieldValue f v) :: read
termination_by (2 * Json.weightMembers members + 1, fields.length)
decreasing_by
  · apply Prod.Lex.right; simp
  · have := Json.weight_lt_of_mem (Json.mem_of_member? _h)
    apply Prod.Lex.left; omega
  · apply Prod.Lex.right; simp

/-- Reads the members of an object of undeclared type as entries of a map. -/
def decodeMembers (t : CodecTable) (members : List (String × Json)) :
    Except CodecError (List (Value × Value)) :=
  match members with
  | [] => .ok []
  | (name, j) :: rest => do
    let v ← t.decodeJson .any j
    let entries ← t.decodeMembers rest
    return (.string name, v) :: entries
termination_by (2 * Json.weightMembers members + 1, 0)
decreasing_by
  all_goals
    have := Json.weight_pos j
    simp only [Json.weightMembers]
    apply Prod.Lex.left; omega

end

/-- Reads a text through a codec reference. -/
def decode (t : CodecTable) (c : CodecRef) (text : String) : Except CodecError Value :=
  match Json.parse text with
  | .ok j => t.decodeJson c j
  | .error e => .error (.json e)

/-- Reads a JSON value through the codec of this name. -/
def decodeNamed (t : CodecTable) (name : String) (j : Json) : Except CodecError Value :=
  t.decodeJson (.generated name) j

/-- Reads an object through the codec of a class; only a checked type is handed on. -/
def decodeObject (t : CodecTable) (p : ObjectPlan) (j : Json) (checkType : Bool) :
    Except CodecError Value :=
  match j with
  | .null => .ok .null
  | .object members => do
    let p ← if checkType then t.codecFor p members else .ok p
    if p.isAbstract then return .null
    let read ← t.readFields members (← t.chainFields p)
    return .object p.typeName (assign [] read)
  | j => CodecError.unexpected .object j

/-- Reads the fields of a class, inherited ones included, into an object that has fields. -/
def readInto (t : CodecTable) (p : ObjectPlan) (members : List (String × Json))
    (fields : List (String × Value)) : Except CodecError (List (String × Value)) := do
  let read ← t.readFields members (← t.chainFields p)
  return assign fields read

end CodecTable

end GraphCodec
