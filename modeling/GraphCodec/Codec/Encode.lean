import GraphCodec.Codec.Tree
import GraphCodec.Json.Scanner

/-!
# Encoding

`CodecTable.encode` writes the text of a value through a codec reference.  The text is appended
piece by piece, with one writer for each sort of position.  A comma depends on the number of members
or elements in front of it: the members of an object are counted through the type tag, the classes
of its superclass chain and the fields without a value.

The text is that of the tree which `CodecTable.encodeJson` builds for the same value.
-/

namespace GraphCodec

/-- A piece of text: what it puts in front of a rest. -/
abbrev Chunk := List Char → List Char

/-- Writes the text of a value through the codec of its position. -/
abbrev Writer := CodecRef → Except CodecError Chunk

namespace Chunk

/-- The text of a piece. -/
def text (cs : Chunk) : String := String.ofList (cs [])

/-- The comma behind other members or elements, given how many there are. -/
def separator (count : Nat) : Chunk := fun rest => if 0 < count then ',' :: rest else rest

/-- The name of a member, up to its value. -/
def memberStart (name : String) : Chunk := fun rest => Json.writeString name (':' :: rest)

/-- A member with a string as its value. -/
def textMember (name text : String) : Chunk :=
  memberStart name ∘ Json.writeString text

/-- Elements in brackets. -/
def bracketed (items : Chunk) : Chunk := fun rest => '[' :: items (']' :: rest)

/-- Members in braces. -/
def braced (members : Chunk) : Chunk := fun rest => '{' :: members ('}' :: rest)

/-- The form of a map as two arrays, given their elements. -/
def pairedForm (keys values : Chunk) : Chunk :=
  braced (memberStart "keys" ∘ bracketed keys ∘
    separator 1 ∘ memberStart "values" ∘ bracketed values)

end Chunk

namespace CodecTable

open Chunk

/-- Writes a value that may be null, given the writer of one that is not. -/
def writeNullable (v : Value) (writer : Writer) : Writer := fun c =>
  if v.isNull then .ok fun rest => "null".toList ++ rest else writer c

/-- The name of the member for the text of a key: what the text is if it is that of a string, and
else the text itself. -/
def memberNameOfText (text : String) : String :=
  match Json.parse text with
  | .ok (.string s) => s
  | _ => text

/-- The name of the member for a key of a map.  Without a codec for keys, a key must be a text. -/
def writeKey (k : Value) (writer : Writer) : Option CodecRef → Except CodecError String
  | none =>
    match k with
    | .string s => .ok s
    | k => CodecError.mismatch .mapKey k
  | some key =>
    if k.isNull then CodecError.mismatch .mapKey k
    else (writer key).map fun cs => memberNameOfText cs.text

/-- Writes the member for a field behind `count` members, and counts it. -/
def writeMember (wireName : String) (count : Nat) (value : Except CodecError Chunk) :
    Except CodecError (Chunk × Nat) :=
  value.map fun cs => (separator count ∘ memberStart wireName ∘ cs, count + 1)

/-- Writes the member for one field behind `count` members, unless it is a field without a value
that may be null. -/
def writeField (field? : String → Option Writer) (f : FieldPlan) (count : Nat) :
    Except CodecError (Chunk × Nat) :=
  match field? f.name, f.encoding.primitive? with
  | some writer, _ => writeMember f.wireName count (writer f.encoding.codec)
  | none, some s => writeMember f.wireName count ((s.encode s.zero).map Json.write)
  | none, none => .ok (id, count)

/-- Writes the members for the fields of one class behind `count` members. -/
def writeOwnFields (field? : String → Option Writer) :
    List FieldPlan → Nat → Except CodecError (Chunk × Nat)
  | [], count => .ok (id, count)
  | f :: fs, count => do
    let (member, count) ← writeField field? f count
    let (members, count) ← writeOwnFields field? fs count
    return (member ∘ members, count)

/-- Writes the members for the fields of a class behind `count` members: those of its superclasses,
which are followed up to a number of steps, and then its own. -/
def writeFieldsWithin (t : CodecTable) (field? : String → Option Writer) :
    Nat → ObjectPlan → Nat → Except CodecError (Chunk × Nat)
  | 0, p, count => writeOwnFields field? p.fields count
  | steps + 1, p, count =>
    match p.superclass with
    | none => writeOwnFields field? p.fields count
    | some name => do
      let (inherited, count) ← t.writeFieldsWithin field? steps (← t.object name) count
      let (own, count) ← writeOwnFields field? p.fields count
      return (inherited ∘ own, count)

/-- Writes an object through the codec of a class, with its type in front if it is tagged. -/
def writeUndispatched (t : CodecTable) (p : ObjectPlan) (tagged : Bool) (typeName : String)
    (field? : String → Option Writer) : Except CodecError Chunk := do
  let (tag, count) := if tagged then (textMember t.tagMember typeName, 1) else (id, 0)
  let (members, _) ← t.writeFieldsWithin field? t.objects.length p count
  return braced (tag ∘ members)

/-- Writes an object through the codec of its declared class, handing it on to the codec of its
own type if that is a known subtype. -/
def writeDispatched (t : CodecTable) (p : ObjectPlan) (typeName : String)
    (field? : String → Option Writer) : Except CodecError Chunk :=
  if typeName ≠ p.typeName ∧ p.knowsSubtype typeName then do
    t.writeUndispatched (← t.object typeName) true typeName field?
  else
    t.writeUndispatched p (typeName = p.typeName && p.hasSubtypes) typeName field?

mutual

/-- Writes the text of a value that is not null. -/
def writeNonNull (t : CodecTable) (v : Value) (c : CodecRef) : Except CodecError Chunk :=
  match c with
  | .scalar s => (s.encode v).map Json.write
  | .string => (Codec.encodeString v).map Json.write
  | .date => (Codec.encodeDate v).map Json.write
  | .timestamp => (Codec.encodeTimestamp v).map Json.write
  | .localDate => (Codec.encodeLocalDate v).map Json.write
  | .sequence shape element =>
    match v with
    | .sequence shape' items =>
      if shape' = shape then (t.writeItems items element 0).map bracketed
      else CodecError.mismatch (.sequence shape) (.sequence shape' items)
    | v => CodecError.mismatch (.sequence shape) v
  | .textKeyMap value =>
    match v with
    | .map entries => (t.writeEntries entries none value 0).map braced
    | v => CodecError.mismatch .map v
  | .parsedKeyMap key value =>
    match v with
    | .map entries => (t.writeEntries entries (some key) value 0).map braced
    | v => CodecError.mismatch .map v
  | .pairedMap key value =>
    match v with
    | .map entries => do
      let keys ← t.writeKeys entries key 0
      let values ← t.writeValues entries value 0
      return pairedForm keys values
    | v => CodecError.mismatch .map v
  | .generated name =>
    match t.object? name, t.enum? name with
    | some p, _ =>
      match v with
      | .object typeName fields =>
        t.writeDispatched p typeName fun name => (t.fieldWriters fields).lookup name
      | v => CodecError.mismatch .object v
    | none, some p => (p.encode v).map Json.write
    | none, none => .error (.unknownCodec name)
  | .any =>
    match v with
    | .null => .ok fun rest => "null".toList ++ rest
    | .boolean _ => (Scalar.boolean.encode v).map Json.write
    | .byte _ => (Scalar.byte.encode v).map Json.write
    | .short _ => (Scalar.short.encode v).map Json.write
    | .int _ => (Scalar.int.encode v).map Json.write
    | .long _ => (Scalar.long.encode v).map Json.write
    | .float _ => (Scalar.float.encode v).map Json.write
    | .double _ => (Scalar.double.encode v).map Json.write
    | .char _ => (Scalar.char.encode v).map Json.write
    | .string s => .ok (Json.writeString s)
    | .enum _ variant => .ok (Json.writeString variant)
    | .date _ => (Codec.encodeDate v).map Json.write
    | .timestamp _ => (Codec.encodeTimestamp v).map Json.write
    | .localDate _ => (Codec.encodeLocalDate v).map Json.write
    | .sequence _ items => (t.writeItems items .any 0).map bracketed
    | .map entries => (t.writeEntries entries none .any 0).map braced
    | .object typeName fields => do
      t.writeUndispatched (← t.object typeName) true typeName fun name =>
        (t.fieldWriters fields).lookup name

/-- Writes the elements of a sequence behind `count` others. -/
def writeItems (t : CodecTable) (items : List Value) (c : CodecRef) (count : Nat) :
    Except CodecError Chunk :=
  match items with
  | [] => .ok id
  | v :: rest => do
    let item ← writeNullable v (t.writeNonNull v) c
    let items ← t.writeItems rest c (count + 1)
    return separator count ∘ item ∘ items

/-- Writes the entries of a map as members behind `count` others. -/
def writeEntries (t : CodecTable) (entries : List (Value × Value)) (key : Option CodecRef)
    (value : CodecRef) (count : Nat) : Except CodecError Chunk :=
  match entries with
  | [] => .ok id
  | (k, v) :: rest => do
    let name ← writeKey k (t.writeNonNull k) key
    let item ← writeNullable v (t.writeNonNull v) value
    let members ← t.writeEntries rest key value (count + 1)
    return separator count ∘ memberStart name ∘ item ∘ members

/-- Writes the keys of a map as elements behind `count` others. -/
def writeKeys (t : CodecTable) (entries : List (Value × Value)) (c : CodecRef) (count : Nat) :
    Except CodecError Chunk :=
  match entries with
  | [] => .ok id
  | (k, _) :: rest => do
    let item ← writeNullable k (t.writeNonNull k) c
    let items ← t.writeKeys rest c (count + 1)
    return separator count ∘ item ∘ items

/-- Writes the values of a map as elements behind `count` others. -/
def writeValues (t : CodecTable) (entries : List (Value × Value)) (c : CodecRef) (count : Nat) :
    Except CodecError Chunk :=
  match entries with
  | [] => .ok id
  | (_, v) :: rest => do
    let item ← writeNullable v (t.writeNonNull v) c
    let items ← t.writeValues rest c (count + 1)
    return separator count ∘ item ∘ items

/-- Gives every field of an object the writer of its value. -/
def fieldWriters (t : CodecTable) (fields : List (String × Value)) : List (String × Writer) :=
  match fields with
  | [] => []
  | (name, v) :: rest => (name, t.writeNonNull v) :: t.fieldWriters rest

end

/-- The text of a value, written through a codec reference; null is written as `null`. -/
def encode (t : CodecTable) (c : CodecRef) (v : Value) : Except CodecError String :=
  (writeNullable v (t.writeNonNull v) c).map Chunk.text

/-- The text of a value, written through the codec of this name. -/
def writeNamed (t : CodecTable) (name : String) (v : Value) : Except CodecError String :=
  (t.writeNonNull v (.generated name)).map Chunk.text

end CodecTable

end GraphCodec
