import GraphCodec.Codec.Table
import GraphCodec.Codec.Leaf

/-!
# Encoding to trees

`CodecTable.encodeJson` turns a value into a JSON tree through a codec reference.  Null is written
as `null` in every position that can hold it; `encodeNonNull` is the codec itself, which refuses
null.

An object is written as one flat JSON object: the fields of the topmost superclass first, then those
of each class below it.  If the value's type is a known subtype of the declared type it is handed on
to the codec of that subtype.  The type is written in front of the fields when the value was handed
on, and when it is exactly of the declared type and that type has subtypes; a type without subtypes
never shows.

Encoding follows the value: the codecs of the fields of an object are applied through
`encodeFields`, which gives every field the function that encodes its value.
-/

namespace GraphCodec

/-- Writes a value through the codec of its position. -/
abbrev Encoder := CodecRef → Except CodecError Json

namespace CodecTable

/-- Writes the member for one field, unless it is a field without a value that may be null. -/
def encodeField (field? : String → Option Encoder) (f : FieldPlan) :
    Except CodecError (Option (String × Json)) :=
  match field? f.name, f.encoding.primitive? with
  | some encoder, _ => (encoder f.encoding.codec).map fun j => some (f.wireName, j)
  | none, some s => (s.encode s.zero).map fun j => some (f.wireName, j)
  | none, none => .ok none

/-- Writes the members for the fields of an object, in order. -/
def encodeMembers (field? : String → Option Encoder) :
    List FieldPlan → Except CodecError (List (String × Json))
  | [] => .ok []
  | f :: fs => do
    let member ← encodeField field? f
    let members ← encodeMembers field? fs
    return member.toList ++ members

/-- Writes an object through the codec of a class, with its type in front if it is tagged. -/
def encodeUndispatched (t : CodecTable) (p : ObjectPlan) (tagged : Bool) (typeName : String)
    (field? : String → Option Encoder) : Except CodecError Json := do
  let fields ← t.chainFields p
  let members ← encodeMembers field? fields
  let tag := if tagged then [(t.tagMember, Json.string typeName)] else []
  return .object (tag ++ members)

/-- Writes an object through the codec of its declared class, handing it on to the codec of its
own type if that is a known subtype. -/
def encodeDispatched (t : CodecTable) (p : ObjectPlan) (typeName : String)
    (field? : String → Option Encoder) : Except CodecError Json :=
  if typeName ≠ p.typeName ∧ p.knowsSubtype typeName then do
    t.encodeUndispatched (← t.object typeName) true typeName field?
  else
    t.encodeUndispatched p (typeName = p.typeName && p.hasSubtypes) typeName field?

/-- The name of the member for a key that has been written. -/
def memberName : Json → String
  | .string s => s
  | j => j.render

/-- Writes a value that may be null, given the codec of one that is not. -/
def encodeNullable (v : Value) (encoder : Encoder) : Encoder := fun c =>
  if v.isNull then .ok .null else encoder c

/-- The name of the member for a key of a map.  Without a codec for keys, a key must be a text. -/
def encodeKey (k : Value) (encoder : Encoder) : Option CodecRef → Except CodecError String
  | none =>
    match k with
    | .string s => .ok s
    | k => CodecError.mismatch .mapKey k
  | some key =>
    if k.isNull then CodecError.mismatch .mapKey k else (encoder key).map memberName

mutual

/-- Writes a value that is not null. -/
def encodeNonNull (t : CodecTable) (v : Value) (c : CodecRef) : Except CodecError Json :=
  match c with
  | .scalar s => s.encode v
  | .string => Codec.encodeString v
  | .date => Codec.encodeDate v
  | .timestamp => Codec.encodeTimestamp v
  | .localDate => Codec.encodeLocalDate v
  | .sequence shape element =>
    match v with
    | .sequence shape' items =>
      if shape' = shape then (t.encodeItems items element).map .array
      else CodecError.mismatch (.sequence shape) (.sequence shape' items)
    | v => CodecError.mismatch (.sequence shape) v
  | .textKeyMap value =>
    match v with
    | .map entries => (t.encodeEntries entries none value).map .object
    | v => CodecError.mismatch .map v
  | .parsedKeyMap key value =>
    match v with
    | .map entries => (t.encodeEntries entries (some key) value).map .object
    | v => CodecError.mismatch .map v
  | .pairedMap key value =>
    match v with
    | .map entries => do
      let keys ← t.encodeKeys entries key
      let values ← t.encodeValues entries value
      return .object [("keys", .array keys), ("values", .array values)]
    | v => CodecError.mismatch .map v
  | .generated name =>
    match t.object? name, t.enum? name with
    | some p, _ =>
      match v with
      | .object typeName fields =>
        t.encodeDispatched p typeName fun name => (t.encodeFields fields).lookup name
      | v => CodecError.mismatch .object v
    | none, some p => p.encode v
    | none, none => .error (.unknownCodec name)
  | .any =>
    match v with
    | .null => .ok .null
    | .boolean _ => Scalar.boolean.encode v
    | .byte _ => Scalar.byte.encode v
    | .short _ => Scalar.short.encode v
    | .int _ => Scalar.int.encode v
    | .long _ => Scalar.long.encode v
    | .float _ => Scalar.float.encode v
    | .double _ => Scalar.double.encode v
    | .char _ => Scalar.char.encode v
    | .string s => .ok (.string s)
    | .enum _ variant => .ok (.string variant)
    | .date _ => Codec.encodeDate v
    | .timestamp _ => Codec.encodeTimestamp v
    | .localDate _ => Codec.encodeLocalDate v
    | .sequence _ items => (t.encodeItems items .any).map .array
    | .map entries => (t.encodeEntries entries none .any).map .object
    | .object typeName fields => do
      t.encodeUndispatched (← t.object typeName) true typeName fun name =>
        (t.encodeFields fields).lookup name

/-- Writes the elements of a sequence. -/
def encodeItems (t : CodecTable) (items : List Value) (c : CodecRef) :
    Except CodecError (List Json) :=
  match items with
  | [] => .ok []
  | v :: rest => do
    let j ← encodeNullable v (t.encodeNonNull v) c
    let js ← t.encodeItems rest c
    return j :: js

/-- Writes the entries of a map as members. -/
def encodeEntries (t : CodecTable) (entries : List (Value × Value)) (key : Option CodecRef)
    (value : CodecRef) : Except CodecError (List (String × Json)) :=
  match entries with
  | [] => .ok []
  | (k, v) :: rest => do
    let name ← encodeKey k (t.encodeNonNull k) key
    let j ← encodeNullable v (t.encodeNonNull v) value
    let members ← t.encodeEntries rest key value
    return (name, j) :: members

/-- Writes the keys of a map as elements. -/
def encodeKeys (t : CodecTable) (entries : List (Value × Value)) (c : CodecRef) :
    Except CodecError (List Json) :=
  match entries with
  | [] => .ok []
  | (k, _) :: rest => do
    let j ← encodeNullable k (t.encodeNonNull k) c
    let js ← t.encodeKeys rest c
    return j :: js

/-- Writes the values of a map as elements. -/
def encodeValues (t : CodecTable) (entries : List (Value × Value)) (c : CodecRef) :
    Except CodecError (List Json) :=
  match entries with
  | [] => .ok []
  | (_, v) :: rest => do
    let j ← encodeNullable v (t.encodeNonNull v) c
    let js ← t.encodeValues rest c
    return j :: js

/-- Gives every field of an object the function that encodes its value. -/
def encodeFields (t : CodecTable) (fields : List (String × Value)) : List (String × Encoder) :=
  match fields with
  | [] => []
  | (name, v) :: rest => (name, t.encodeNonNull v) :: t.encodeFields rest

end

/-- Writes a value; null is written as `null`. -/
def encodeJson (t : CodecTable) (c : CodecRef) (v : Value) : Except CodecError Json :=
  encodeNullable v (t.encodeNonNull v) c

/-- Writes a value through the codec of this name. -/
def encodeNamed (t : CodecTable) (name : String) (v : Value) : Except CodecError Json :=
  t.encodeNonNull v (.generated name)

/-- Writes an object through the codec of a class; only a checked type is handed on. -/
def encodeObject (t : CodecTable) (p : ObjectPlan) (v : Value) (checkType : Bool) :
    Except CodecError Json :=
  match v with
  | .object typeName fields =>
    let field? := fun name => (t.encodeFields fields).lookup name
    if checkType then t.encodeDispatched p typeName field?
    else t.encodeUndispatched p true typeName field?
  | v => CodecError.mismatch .object v

/-- Writes the members for the fields of an object, inherited fields first. -/
def printFields (t : CodecTable) (p : ObjectPlan) (fields : List (String × Value)) :
    Except CodecError (List (String × Json)) := do
  encodeMembers (fun name => (t.encodeFields fields).lookup name) (← t.chainFields p)

/-- The text of members that follow others in an object, or that are the first in it. -/
def membersText (first : Bool) (members : List (String × Json)) : String :=
  let cs := Json.writeMembers members []
  String.ofList (if first then cs.tail else cs)

end CodecTable

end GraphCodec
