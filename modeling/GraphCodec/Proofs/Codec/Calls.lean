import GraphCodec.Codec.Decode
import GraphCodec.Codec.Encode
import GraphCodec.Proofs.Except

/-!
# Calls of codecs

`CodecTable.encode` and `CodecTable.decode` recurse on the value that is written and on the tree
that is read.  The codecs of a table call each other instead: a reference calls the codec of its
name, the codec of a class hands an object on to that of another class, and the codec of a subclass
calls that of its superclass for the same object.  Here they are written as such calls, which may
only be nested to some depth, and a call that goes deeper has no result.

Every call stands for one of a codec: `Calling.encode` and `Calling.decode` for those of a
reference, `Calling.encodeObject` and `Calling.decodeObject` for those of a class with or without a
check of the type, `Calling.printFields` and `Calling.readFields` for those that handle the fields
of a class and of the classes above it.  `Calling.Returns` says that a call comes to an end, and
with what.
-/

namespace GraphCodec

/-- A call, which has no result if calls are nested too deep, and else a value or an error. -/
abbrev Calling := ExceptT CodecError Option

namespace Calling

variable {α β : Type}

/-- A call without a result. -/
def stop : Calling α := ExceptT.mk none

/-- What is done without a further call. -/
def done (r : Except CodecError α) : Calling α := ExceptT.mk (some r)

/-- Whether a call comes to an end with a value or an error. -/
def Returns (m : Calling α) (r : Except CodecError α) : Prop := m.run = some r

/-! ### Encoding -/

section

open Chunk CodecTable

/-- Writes pieces one after another behind `count` others. -/
def pieces (piece : α → Calling Chunk) : List α → Nat → Calling Chunk
  | [], _ => return id
  | a :: as, count => do
    let cs ← piece a
    let ds ← pieces piece as (count + 1)
    return separator count ∘ cs ∘ ds

variable (call : CodecRef → Value → Calling Chunk)

/-- Encodes a value that may be null. -/
def encodeNullable (c : CodecRef) (v : Value) : Calling Chunk :=
  if v.isNull then return fun rest => "null".toList ++ rest else call c v

/-- The name of the member for a key of a map. -/
def memberName (key : Option CodecRef) (k : Value) : Calling String :=
  match key with
  | none =>
    match k with
    | .string s => return s
    | k => done (CodecError.mismatch .mapKey k)
  | some c =>
    if k.isNull then done (CodecError.mismatch .mapKey k)
    else do
      let cs ← call c k
      return memberNameOfText cs.text

/-- Writes an entry of a map as a member. -/
def encodeEntry (key : Option CodecRef) (value : CodecRef) (e : Value × Value) :
    Calling Chunk := do
  let name ← memberName call key e.1
  let item ← encodeNullable call value e.2
  return memberStart name ∘ item

/-- Writes the member for a value behind `count` members, if there is a value. -/
def printField (f : FieldPlan) (value : Option Value) (count : Nat) : Calling (Chunk × Nat) :=
  match value with
  | none => return (id, count)
  | some v =>
    (fun cs => (separator count ∘ memberStart f.wireName ∘ cs, count + 1)) <$>
      call f.encoding.codec v

/-- The value of a field that is written: a primitive field has one in any case. -/
def fieldToPrint (fields : List (String × Value)) (f : FieldPlan) : Option Value :=
  match f.encoding.primitive? with
  | some s => some ((Value.getField? fields f.name).getD s.zero)
  | none => Value.getField? fields f.name

/-- Writes the members for the fields of one class behind `count` members. -/
def printOwnFields (fields : List (String × Value)) :
    List FieldPlan → Nat → Calling (Chunk × Nat)
  | [], count => return (id, count)
  | f :: fs, count => do
    let (member, count) ← printField call f (fieldToPrint fields f) count
    let (members, count) ← printOwnFields fields fs count
    return (member ∘ members, count)

/-- Writes an object, with its type in front of its fields if it is tagged. -/
def printObject (t : CodecTable) (tagged : Bool) (typeName : String)
    (fields : Nat → Calling (Chunk × Nat)) : Calling Chunk := do
  let (tag, count) := if tagged then (textMember t.tagMember typeName, 1) else (id, 0)
  let (members, _) ← fields count
  return braced (tag ∘ members)

mutual

/-- Encodes a value that is not null through a codec reference. -/
def encode (t : CodecTable) : Nat → CodecRef → Value → Calling Chunk
  | 0, _, _ => stop
  | depth + 1, c, v =>
    match c with
    | .scalar s => done ((s.encode v).map Json.write)
    | .string => done ((Codec.encodeString v).map Json.write)
    | .date => done ((Codec.encodeDate v).map Json.write)
    | .timestamp => done ((Codec.encodeTimestamp v).map Json.write)
    | .localDate => done ((Codec.encodeLocalDate v).map Json.write)
    | .sequence shape element =>
      match v with
      | .sequence shape' items =>
        if shape' = shape then
          bracketed <$> pieces (encodeNullable (encode t depth) element) items 0
        else done (CodecError.mismatch (.sequence shape) (.sequence shape' items))
      | v => done (CodecError.mismatch (.sequence shape) v)
    | .textKeyMap value =>
      match v with
      | .map entries => braced <$> pieces (encodeEntry (encode t depth) none value) entries 0
      | v => done (CodecError.mismatch .map v)
    | .parsedKeyMap key value =>
      match v with
      | .map entries => braced <$> pieces (encodeEntry (encode t depth) (some key) value) entries 0
      | v => done (CodecError.mismatch .map v)
    | .pairedMap key value =>
      match v with
      | .map entries => do
        let keys ← pieces (fun e => encodeNullable (encode t depth) key e.1) entries 0
        let values ← pieces (fun e => encodeNullable (encode t depth) value e.2) entries 0
        return pairedForm keys values
      | v => done (CodecError.mismatch .map v)
    | .generated name =>
      match t.object? name, t.enum? name with
      -- The value stays the same; only the codec of an object goes down in it.
      | some p, _ => encodeObject t depth p v true
      | none, some p => done ((p.encode v).map Json.write)
      | none, none => done (.error (.unknownCodec name))
    | .any =>
      match v with
      | .null => return fun rest => "null".toList ++ rest
      | .boolean _ => done ((Scalar.boolean.encode v).map Json.write)
      | .byte _ => done ((Scalar.byte.encode v).map Json.write)
      | .short _ => done ((Scalar.short.encode v).map Json.write)
      | .int _ => done ((Scalar.int.encode v).map Json.write)
      | .long _ => done ((Scalar.long.encode v).map Json.write)
      | .float _ => done ((Scalar.float.encode v).map Json.write)
      | .double _ => done ((Scalar.double.encode v).map Json.write)
      | .char _ => done ((Scalar.char.encode v).map Json.write)
      | .string s => return Json.writeString s
      | .enum _ variant => return Json.writeString variant
      | .date _ => done ((Codec.encodeDate v).map Json.write)
      | .timestamp _ => done ((Codec.encodeTimestamp v).map Json.write)
      | .localDate _ => done ((Codec.encodeLocalDate v).map Json.write)
      | .sequence _ items => bracketed <$> pieces (encodeNullable (encode t depth) .any) items 0
      | .map entries => braced <$> pieces (encodeEntry (encode t depth) none .any) entries 0
      | .object typeName _ => do
        let p ← done (t.object typeName)
        encodeObject t depth p v false

/-- Encodes an object through the codec of a class; only a checked type is handed on. -/
def encodeObject (t : CodecTable) : Nat → ObjectPlan → Value → Bool → Calling Chunk
  | 0, _, _, _ => stop
  | depth + 1, p, v, checkType =>
    match v with
    | .object typeName fields =>
      if checkType ∧ typeName ≠ p.typeName ∧ p.knowsSubtype typeName then do
        -- The subtype is not checked again, so subtypes that list each other do not matter.
        let sub ← done (t.object typeName)
        encodeObject t depth sub v false
      else
        printObject t (!checkType || (typeName = p.typeName && p.hasSubtypes)) typeName
          (printFields t depth p fields)
    | v => done (CodecError.mismatch .object v)

/-- Writes the members for the fields of a class behind `count` members, those of its superclasses
first. -/
def printFields (t : CodecTable) :
    Nat → ObjectPlan → List (String × Value) → Nat → Calling (Chunk × Nat)
  | 0, _, _, _ => stop
  | depth + 1, p, fields, count =>
    match p.superclass with
    | none => printOwnFields (encode t depth) fields p.fields count
    | some name => do
      -- The one call that goes on with the same object without a bound of its own.
      let above ← done (t.object name)
      let (inherited, count) ← printFields t depth above fields count
      let (own, count) ← printOwnFields (encode t depth) fields p.fields count
      return (inherited ∘ own, count)

end

/-- The text of a value, written through a codec reference. -/
def encodeText (t : CodecTable) (depth : Nat) (c : CodecRef) (v : Value) : Calling String :=
  Chunk.text <$> encodeNullable (encode t depth) c v

end

/-! ### Decoding -/

section

open CodecTable

/-- Adds entries to the entries of a map one after another, last first; no two have one key. -/
def insertAll (entry : α → Calling ((Value × Value) × String)) :
    List α → List (Value × Value) → Calling (List (Value × Value))
  | [], entries => return entries.reverse
  | a :: as, entries => do
    let e ← entry a
    let entries ← done (addEntry entries e.1.1 e.1.2 e.2)
    insertAll entry as entries

variable (call : CodecRef → Json → Calling Value)

/-- The key that the name of a member stands for. -/
def decodeKey (key : Option CodecRef) (name : String) : Calling Value :=
  match key with
  | none => return .string name
  | some c => call c (keyJson name)

/-- The entry for a member of an object whose names are keys. -/
def decodeEntry (key : Option CodecRef) (value : CodecRef) (m : String × Json) :
    Calling ((Value × Value) × String) := do
  let k ← decodeKey call key m.1
  let v ← call value m.2
  return ((k, v), m.1)

/-- The entry for a key and a value of a map. -/
def decodePair (key value : CodecRef) (p : Json × Json) : Calling ((Value × Value) × String) := do
  let k ← call key p.1
  let v ← call value p.2
  return ((k, v), p.1.render)

/-- The entry for a member of an object whose names are texts of keys. -/
def decodeNamedPair (key value : CodecRef) (m : String × Json) :
    Calling ((Value × Value) × String) := do
  let k ← call key (.string m.1)
  let v ← call value m.2
  return ((k, v), m.1)

/-- Reads a map with arbitrary keys: two arrays, or else the members of an object. -/
def decodePairedMap (key value : CodecRef) (members : List (String × Json)) : Calling Value :=
  if isPairedForm members then do
    let values ← done (pairedValues members)
    if (pairedKeys members).length ≠ values.length then
      done (.error (.mismatchedMapArrays (pairedKeys members).length values.length))
    else Value.map <$> insertAll (decodePair call key value) ((pairedKeys members).zip values) []
  else Value.map <$> insertAll (decodeNamedPair call key value) members []

/-- Reads a field from the members of an object. -/
def readField (members : List (String × Json)) (f : FieldPlan) : Calling Value :=
  match Json.member? members f.wireName with
  | some j => call f.encoding.codec j
  | none => return .null

/-- Reads the fields of one class into an object that has fields. -/
def readOwnFields (members : List (String × Json)) :
    List FieldPlan → List (String × Value) → Calling (List (String × Value))
  | [], fields => return fields
  | f :: fs, fields => do
    let v ← readField call members f
    readOwnFields members fs (Value.setField fields f.name (fieldValue f v))

mutual

/-- Reads a JSON value through a codec reference. -/
def decode (t : CodecTable) : Nat → CodecRef → Json → Calling Value
  | 0, _, _ => stop
  | depth + 1, c, j =>
    match c with
    | .scalar s => done (s.decode j)
    | .string => done (Codec.decodeString j)
    | .date => done (Codec.decodeDate j)
    | .timestamp => done (Codec.decodeTimestamp j)
    | .localDate => done (Codec.decodeLocalDate j)
    | .sequence shape element =>
      match j with
      | .null => return .null
      | .array items =>
        (fun vs => .sequence shape (if shape = .set then Value.distinct vs else vs)) <$>
          items.mapM (decode t depth element)
      | j => done (CodecError.unexpected (.sequence shape) j)
    | .textKeyMap value =>
      match j with
      | .null => return .null
      | .object members =>
        Value.map <$> insertAll (decodeEntry (decode t depth) none value) members []
      | j => done (CodecError.unexpected .map j)
    | .parsedKeyMap key value =>
      match j with
      | .null => return .null
      | .object members =>
        Value.map <$> insertAll (decodeEntry (decode t depth) (some key) value) members []
      | j => done (CodecError.unexpected .map j)
    | .pairedMap key value =>
      match j with
      | .null => return .null
      | .object members => decodePairedMap (decode t depth) key value members
      | j => done (CodecError.unexpected .map j)
    | .generated name =>
      match t.object? name, t.enum? name with
      | some p, _ => decodeObject t depth p j true
      | none, some p => done (p.decode j)
      | none, none => done (.error (.unknownCodec name))
    | .any =>
      match j with
      | .null => return .null
      | .bool b => return .boolean b
      | .number n => return numberValue n
      | .string s => return .string s
      | .array items => (Value.sequence .list) <$> items.mapM (decode t depth .any)
      | .object members =>
        match t.taggedObject? members with
        | some p => decodeObject t depth p j false
        | none =>
          Value.map <$> members.mapM fun m => (Value.string m.1, ·) <$> decode t depth .any m.2

/-- Reads an object through the codec of a class; only a checked type is handed on. -/
def decodeObject (t : CodecTable) : Nat → ObjectPlan → Json → Bool → Calling Value
  | 0, _, _, _ => stop
  | depth + 1, p, j, checkType =>
    match j with
    | .null => return .null
    | .object members =>
      match if checkType then t.subtypeFor? p members else none with
      | some tag => do
        let sub ← done (t.object tag)
        decodeObject t depth sub j false
      | none =>
        if p.isAbstract then return .null
        else do
          let fields ← readFields t depth p members []
          return .object p.typeName fields
    | j => done (CodecError.unexpected .object j)

/-- Reads the fields of a class into an object that has fields, those of its superclasses first. -/
def readFields (t : CodecTable) :
    Nat → ObjectPlan → List (String × Json) → List (String × Value) →
      Calling (List (String × Value))
  | 0, _, _, _ => stop
  | depth + 1, p, members, fields =>
    match p.superclass with
    | none => readOwnFields (decode t depth) members p.fields fields
    | some name => do
      let above ← done (t.object name)
      let fields ← readFields t depth above members fields
      readOwnFields (decode t depth) members p.fields fields

end

/-- Reads a text through a codec reference. -/
def decodeText (t : CodecTable) (depth : Nat) (c : CodecRef) (text : String) : Calling Value :=
  match Json.parse text with
  | .ok j => decode t depth c j
  | .error e => done (.error (.json e))

end

/-! ### Calls that return -/

namespace Returns

variable {m : Calling α} {r : Except CodecError α} {f : α → Calling β}
  {g : α → Except CodecError β} {piece : α → Calling Chunk}

theorem done : Returns (done r) r := rfl

theorem pure {a : α} : Returns (pure a) (.ok a) := rfl

/-- A call behind another goes on with its value, and not at all if that was an error. -/
theorem bind (h : Returns m r) (hf : ∀ a, r = .ok a → Returns (f a) (g a)) :
    Returns (m >>= f) (r >>= g) := by
  unfold Returns at h ⊢
  rw [ExceptT.run_bind, h]
  cases r with
  | error e => rfl
  | ok a => exact hf a rfl

/-- A function of what a call returns is returned by the mapped call. -/
theorem map {f : α → β} (h : Returns m r) : Returns (f <$> m) (r.map f) := by
  unfold Returns at h ⊢
  rw [ExceptT.run_map, h]
  rfl

/-- Calls for the elements of a list return the results for the elements. -/
theorem mapM {as : List α} (h : ∀ a ∈ as, Returns (f a) (g a)) :
    Returns (as.mapM f) (as.mapM g) := by
  induction as with
  | nil => exact pure
  -- The first element is called for first, then the others.
  | cons a as ih =>
    rw [List.mapM_cons, List.mapM_cons]
    refine (h a List.mem_cons_self).bind fun b _ => ?_
    refine (ih fun x hx => h x (List.mem_cons_of_mem a hx)).bind fun bs _ => ?_
    exact pure

end Returns

end Calling

end GraphCodec
