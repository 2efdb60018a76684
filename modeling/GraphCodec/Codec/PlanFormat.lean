import GraphCodec.Codec.Plan
import GraphCodec.Codec.RefFormat

/-!
# The written form of codec plans

A plan is written as an object whose member `kind` says whether it is the plan of a class or of an
enum.  What has its usual value is left out: an absent superclass, an empty list of subtypes, the
mark of a private field that a public one does not have.

`CodecPlan.toJson` writes a plan and `CodecPlan.read` reads it.
-/

namespace GraphCodec

open Json

/-- The written form of a list of texts. -/
def namesJson (names : List String) : Json := .array (names.map .string)

namespace FieldEncoding

/-- The written form of an encoding. -/
def toJson : FieldEncoding → Json
  | primitive s => .object [("encoding", .string "primitive"), ("of", .string s.name)]
  | boxed s => .object [("encoding", .string "boxed"), ("of", .string s.name)]
  | string => .object [("encoding", .string "str")]
  | nested c => .object [("encoding", .string "nested"), ("of", c.toJson)]

/-- The sorts of encodings as a written encoding names them. -/
inductive Family where
  | primitive
  | boxed
  | string
  | nested

/-- The form of an encoding: the member `encoding` says what the member `of` holds. -/
def form : AdjacentForm Family where
  expected := "adjacently tagged enum FieldEncoding"
  tagName := "encoding"
  contentName := "of"
  variants := [("primitive", .primitive), ("boxed", .boxed), ("str", .string), ("nested", .nested)]

/-- Reads what an encoding of some sort needs. -/
def readContent (family : Family) (o : Origin) (d : Draft) : Reading FieldEncoding :=
  match family with
  | .primitive => (d.readVariant o CodecRef.scalarVariants).map .primitive
  | .boxed => (d.readVariant o CodecRef.scalarVariants).map .boxed
  | .string =>
    (CodecRef.readNothing "unit variant FieldEncoding::Str" o d).map fun _ => .string
  | .nested => (CodecRef.read o d).map .nested

/-- Reads an encoding. -/
def read (o : Origin) : Draft → Reading FieldEncoding
  | .object members stop => do
    match ← form.locate (← o.enter) members stop with
    | ⟨.string, none, _⟩ => return .string
    | ⟨_, none, _⟩ => .error (.missingField form.contentName)
    | ⟨family, some (content, inner), rest⟩ =>
      let encoding ← readContent family inner content
      form.checkRest rest stop
      return encoding
  | .array items stop => do
    let o ← o.enter
    let (family, content, rest) ← form.locateItems o items stop
    let encoding ← readContent family o content
    endOfRecord o 2 rest stop
    return encoding
  | d => d.mismatch form.expected

end FieldEncoding

namespace FieldPlan

/-- The written form of the plan of a field. -/
def toJson (f : FieldPlan) : Json :=
  .object ([("name", .string f.name), ("wire_name", .string f.wireName)] ++
    (if f.isPrivate then [("private", .bool true)] else []) ++
    [("encoding", f.encoding.toJson)])

/-- The members of a field plan that have been read. -/
structure Slots where
  name : Option String
  wireName : Option String
  isPrivate : Option Bool
  encoding : Option FieldEncoding

/-- The form of the plan of a field. -/
def form : RecordForm Slots FieldPlan where
  expected := "struct FieldPlan"
  fields := ["name", "wire_name", "private", "encoding"]
  strict := false
  empty := ⟨none, none, none, none⟩
  member o s name d :=
    match name with
    | "name" => do return { s with name := ← fill s.name name d.readString }
    | "wire_name" => do return { s with wireName := ← fill s.wireName name d.readString }
    | "private" => do return { s with isPrivate := ← fill s.isPrivate name d.readBool }
    | "encoding" => do
      return { s with encoding := ← fill s.encoding name (FieldEncoding.read o d) }
    | _ => .ok s
  finish s missing := do
    return {
      name := ← filled s.name (missing "name")
      wireName := ← filled s.wireName (missing "wire_name")
      isPrivate := s.isPrivate.getD false
      encoding := ← filled s.encoding (missing "encoding") }

end FieldPlan

namespace ObjectPlan

/-- The members of the written form of the plan of a class. -/
def toMembers (p : ObjectPlan) : List (String × Json) :=
  [("type_name", .string p.typeName), ("is_abstract", .bool p.isAbstract)] ++
    (match p.superclass with
      | some name => [("superclass", .string name)]
      | none => []) ++
    (if p.subtypes.isEmpty then [] else [("subtypes", namesJson p.subtypes)]) ++
    [("fields", .array (p.fields.map FieldPlan.toJson))]

/-- The members of the plan of a class that have been read. -/
structure Slots where
  typeName : Option String
  isAbstract : Option Bool
  superclass : Option (Option String)
  subtypes : Option (List String)
  fields : Option (List FieldPlan)

/-- The form of the plan of a class. -/
def form : RecordForm Slots ObjectPlan where
  expected := "struct ObjectPlan"
  fields := ["type_name", "is_abstract", "superclass", "subtypes", "fields"]
  strict := false
  empty := ⟨none, none, none, none, none⟩
  member o s name d :=
    match name with
    | "type_name" => do return { s with typeName := ← fill s.typeName name d.readString }
    | "is_abstract" => do return { s with isAbstract := ← fill s.isAbstract name d.readBool }
    | "superclass" => do
      return { s with superclass := ← fill s.superclass name (d.readOption Draft.readString) }
    | "subtypes" => do
      return { s with subtypes := ← fill s.subtypes name (d.readStrings o) }
    | "fields" => do
      return { s with fields := ← fill s.fields name (d.readList o FieldPlan.form.read) }
    | _ => .ok s
  finish s missing := do
    return {
      typeName := ← filled s.typeName (missing "type_name")
      isAbstract := s.isAbstract.getD false
      superclass := s.superclass.getD none
      subtypes := s.subtypes.getD []
      fields := ← filled s.fields (missing "fields") }

end ObjectPlan

namespace EnumPlan

/-- The members of the written form of the plan of an enum. -/
def toMembers (p : EnumPlan) : List (String × Json) :=
  [("type_name", .string p.typeName), ("variants", namesJson p.variants)]

/-- The members of the plan of an enum that have been read. -/
structure Slots where
  typeName : Option String
  variants : Option (List String)

/-- The form of the plan of an enum. -/
def form : RecordForm Slots EnumPlan where
  expected := "struct EnumPlan"
  fields := ["type_name", "variants"]
  strict := false
  empty := ⟨none, none⟩
  member o s name d :=
    match name with
    | "type_name" => do return { s with typeName := ← fill s.typeName name d.readString }
    | "variants" => do return { s with variants := ← fill s.variants name (d.readStrings o) }
    | _ => .ok s
  finish s missing := do
    return {
      typeName := ← filled s.typeName (missing "type_name")
      variants := ← filled s.variants (missing "variants") }

end EnumPlan

namespace CodecPlan

/-- The written form of a plan. -/
def toJson : CodecPlan → Json
  | object p => .object (("kind", .string "object") :: p.toMembers)
  | enum p => .object (("kind", .string "enum") :: p.toMembers)

/-- The sorts of plans as a written plan names them. -/
inductive Family where
  | object
  | enum

/-- Reads a plan. -/
def read (o : Origin) (d : Draft) : Reading CodecPlan := do
  let (family, rest) ← readTagged o "internally tagged enum CodecPlan" "kind"
    [("object", Family.object), ("enum", Family.enum)] d
  match family with
  | .object => (ObjectPlan.form.readUntagged rest).map .object
  | .enum => (EnumPlan.form.readUntagged rest).map .enum

/-- Reads a list of plans from its text. -/
def listOfText (text : String) : Reading (List CodecPlan) :=
  readText text fun o d => d.readList o read

/-- The text of a list of plans, on lines of its own. -/
def listText (plans : List CodecPlan) : String :=
  (Json.array (plans.map toJson)).renderPretty

end CodecPlan

end GraphCodec
