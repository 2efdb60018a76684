import GraphCodec.Generation.Unit

/-!
# The kennel

A small schema with one of everything: an enum, a class with subtypes, a class that refers to
itself, classes whose identities collide, and a class with fields of all the container types.

The schema of pets is smaller still, and stands here with the graph that it is loaded into.
-/

namespace GraphCodec.Example

/-- A public field without modifiers. -/
def field (name type : String) : FieldDecl := ⟨name, type, false, []⟩

/-- A concrete class without interfaces. -/
def record (name : String) (superclass : Option String) (fields : List FieldDecl) : TypeDecl :=
  .classType ⟨name, false, superclass, [], fields⟩

/-- The schema of the kennel. -/
def kennelSchema : Schema where
  roots := ["a.Kennel", "a.Node"]
  types := [
    .enumType ⟨"a.Color", ["RED", "BLACK"]⟩,
    .classType ⟨"a.Animal", true, none, [],
      [field "name" "std.String"]⟩,
    record "a.Dog" (some "a.Animal") [field "good" "boolean", field "color" "a.Color"],
    record "a.Cat" (some "a.Animal") [field "lives" "int", field "weight" "std.Double"],
    record "a.Spot" none [field "x" "int"],
    record "a.Outer$Inner" none [field "v" "int"],
    record "a.Outer.Inner" none [field "w" "int"],
    record "a.b_C" none [field "p" "int"],
    record "a_b.C" none [field "q" "int"],
    record "a.Node" none [field "next" "a.Node", field "id" "int"],
    record "a.Kennel" none [
      field "animals" "std.List<a.Animal>",
      field "byName" "std.Map<std.String, a.Animal>",
      field "open" "std.Map<std.Boolean, std.String>",
      field "spots" "std.Map<a.Spot, std.Integer>",
      field "star" "a.Animal",
      field "visits" "long",
      field "ids" "long[]",
      field "tags" "std.Set<std.String>",
      field "nested" "a.Outer$Inner",
      field "dotted" "a.Outer.Inner",
      field "left" "a.b_C",
      field "right" "a_b.C"]]

/-- The table of the codecs of the kennel. -/
def kennelTable : Option CodecTable := do
  let schema ← kennelSchema.load.toOption
  let unit ← (GeneratorConfig.standard.generateSchema schema).toOption
  return unit.link

/-- The schema of pets. -/
def petSchema : Schema where
  roots := ["Owner"]
  types := [
    .enumType ⟨"Color", ["RED", "BLACK"]⟩,
    .classType ⟨"Pet", true, none, [], [field "name" "std.String"]⟩,
    record "Dog" (some "Pet") [field "age" "int", field "color" "Color"],
    record "Owner" none [
      field "pets" "std.List<Pet>",
      field "marks" "std.Map<Color, std.Integer>"]]

/-- The types of the graph of pets. -/
def petTypes : List TypeDescriptor :=
  TypeGraph.preludeTypes ++ [
    ⟨"Color", .enumType ["RED", "BLACK"]⟩,
    ⟨"Pet", .classType { ClassBody.declared true with
      fields := [⟨"name", .string, false, []⟩] }⟩,
    ⟨"Dog", .classType { ClassBody.declared false with
      superclass := some ⟨33⟩
      fields := [⟨"age", Primitive.id (.scalar .int), false, []⟩, ⟨"color", ⟨32⟩, false, []⟩] }⟩,
    ⟨"Owner", .classType { ClassBody.declared false with
      fields := [⟨"pets", ⟨36⟩, false, []⟩, ⟨"marks", ⟨37⟩, false, []⟩] }⟩,
    ⟨"std.List<Pet>", .parameterized .list [⟨33⟩]⟩,
    ⟨"std.Map<Color, std.Integer>", .parameterized .map [⟨32⟩, Scalar.boxedId .int]⟩]

/-- The graph of pets. -/
def petGraph : TypeGraph where
  types := petTypes.toArray
  parts_lt := by
    have h : ∀ i < petTypes.length, ∀ p ∈ (petTypes[i]?.getD .reserved).kind.parts,
        p.index < i := by decide
    intro i t ht p hp
    rw [List.getElem?_toArray] at ht
    have hlt : i < petTypes.length := (List.getElem?_eq_some_iff.1 ht).1
    exact h i hlt p (by rw [ht]; exact hp)

/-- An owner of a dog of unknown age and of a pet that is missing, with a mark for red and none for
black. -/
def owner : Value :=
  .object "Owner" [
    ("marks", .map [(.enum "Color" "RED", .int 7), (.enum "Color" "BLACK", .null)]),
    ("pets", .sequence .list [.object "Dog" [("color", .enum "Color" "RED")], .null])]

end GraphCodec.Example
