import GraphCodec.Schema.Declaration
import GraphCodec.Json.Reader

/-!
# Reading schemas

A schema is read from a JSON text.  Members that no form has are refused, except in the declaration
of a library class.
-/

namespace GraphCodec

open Json

namespace FieldDecl

/-- The members of a field that have been read. -/
structure Slots where
  name : Option String
  type : Option String
  isPrivate : Option Bool
  modifiers : Option (List Modifier)

/-- The words for the visibility of a field. -/
def visibilities : List (String × Bool) := [("public", false), ("private", true)]

/-- The words for modifiers. -/
def modifierWords : List (String × Modifier) := Modifier.all.map fun m => (m.keyword, m)

/-- The form of a field. -/
def form : RecordForm Slots FieldDecl where
  expected := "struct FieldDecl"
  fields := ["name", "type", "visibility", "modifiers"]
  strict := true
  empty := ⟨none, none, none, none⟩
  member o s name d :=
    match name with
    | "name" => do return { s with name := ← fill s.name name d.readString }
    | "type" => do return { s with type := ← fill s.type name d.readString }
    | "visibility" => do
      return { s with isPrivate := ← fill s.isPrivate name (d.readVariant o visibilities) }
    | "modifiers" => do
      return { s with
        modifiers := ← fill s.modifiers name
          (d.readList o fun o d => d.readVariant o modifierWords) }
    | _ => .ok s
  finish s missing := do
    return {
      name := ← filled s.name (missing "name")
      type := ← filled s.type (missing "type")
      isPrivate := s.isPrivate.getD false
      modifiers := s.modifiers.getD [] }

end FieldDecl

namespace ClassDecl

/-- The members of a class that have been read. -/
structure Slots where
  name : Option String
  isAbstract : Option Bool
  superclass : Option (Option String)
  interfaces : Option (List String)
  fields : Option (List FieldDecl)

/-- The form of a class or an interface. -/
def form : RecordForm Slots ClassDecl where
  expected := "struct ClassDecl"
  fields := ["name", "abstract", "superclass", "interfaces", "fields"]
  strict := true
  empty := ⟨none, none, none, none, none⟩
  member o s name d :=
    match name with
    | "name" => do return { s with name := ← fill s.name name d.readString }
    | "abstract" => do return { s with isAbstract := ← fill s.isAbstract name d.readBool }
    | "superclass" => do
      return { s with superclass := ← fill s.superclass name (d.readOption Draft.readString) }
    | "interfaces" => do
      return { s with interfaces := ← fill s.interfaces name (d.readStrings o) }
    | "fields" => do
      return { s with fields := ← fill s.fields name (d.readList o FieldDecl.form.read) }
    | _ => .ok s
  finish s missing := do
    return {
      name := ← filled s.name (missing "name")
      isAbstract := s.isAbstract.getD false
      superclass := s.superclass.getD none
      interfaces := s.interfaces.getD []
      fields := s.fields.getD [] }

end ClassDecl

namespace EnumDecl

/-- The members of an enum that have been read. -/
structure Slots where
  name : Option String
  variants : Option (List String)

/-- The form of an enum. -/
def form : RecordForm Slots EnumDecl where
  expected := "struct EnumDecl"
  fields := ["name", "variants"]
  strict := true
  empty := ⟨none, none⟩
  member o s name d :=
    match name with
    | "name" => do return { s with name := ← fill s.name name d.readString }
    | "variants" => do return { s with variants := ← fill s.variants name (d.readStrings o) }
    | _ => .ok s
  finish s missing := do
    return {
      name := ← filled s.name (missing "name")
      variants := s.variants.getD [] }

end EnumDecl

namespace TypeDecl

/-- The form of a library class, which has only a name. -/
def libraryForm : RecordForm (Option String) String where
  expected := "struct variant TypeDecl::Library"
  fields := ["name"]
  strict := false
  empty := none
  member _ s name d :=
    match name with
    | "name" => fill s name d.readString
    | _ => .ok s
  finish s missing := filled s (missing "name")

/-- The sorts of types as a declaration names them. -/
inductive Family where
  | classType
  | interfaceType
  | enumType
  | libraryType

/-- Reads the declaration of a type, whose member `kind` says of which sort it is. -/
def read (o : Origin) (d : Draft) : Reading TypeDecl := do
  let (family, rest) ← readTagged o "internally tagged enum TypeDecl" "kind"
    [("class", Family.classType), ("interface", .interfaceType), ("enum", .enumType),
      ("library", .libraryType)] d
  match family with
  | .classType => (ClassDecl.form.readUntagged rest).map .classType
  | .interfaceType => (ClassDecl.form.readUntagged rest).map .interfaceType
  | .enumType => (EnumDecl.form.readUntagged rest).map .enumType
  | .libraryType => (libraryForm.readUntagged rest).map .libraryType

end TypeDecl

namespace Schema

/-- The members of a schema that have been read. -/
structure Slots where
  roots : Option (List String)
  types : Option (List TypeDecl)

/-- The form of a schema. -/
def form : RecordForm Slots Schema where
  expected := "struct Schema"
  fields := ["roots", "types"]
  strict := true
  empty := ⟨none, none⟩
  member o s name d :=
    match name with
    | "roots" => do return { s with roots := ← fill s.roots name (d.readStrings o) }
    | "types" => do return { s with types := ← fill s.types name (d.readList o TypeDecl.read) }
    | _ => .ok s
  finish s _ := .ok ⟨s.roots.getD [], s.types.getD []⟩

/-- Reads a schema from its text. -/
def ofText (text : String) : Reading Schema := readText text form.read

end Schema

end GraphCodec
