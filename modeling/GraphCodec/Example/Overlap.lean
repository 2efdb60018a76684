import GraphCodec.Generation.Unit

/-!
# Names that meet

Two small schemas of a class and a subclass whose fields get in each other's way: in one of them the
names of the members meet when a prefix is dropped, in the other a field is declared again with
another type.
-/

namespace GraphCodec.Example

/-- A class of the program without interfaces. -/
def classOf (superclass : Option TypeId) (fields : List Field) : TypeKind :=
  .classType { ClassBody.declared false with superclass := superclass, fields := fields }

/-- The graph of declared types that are made of no others. -/
def graphOf (declared : List TypeDescriptor) (plain : ∀ t ∈ declared, t.kind.parts = []) :
    TypeGraph where
  types := (TypeGraph.preludeTypes ++ declared).toArray
  parts_lt := by
    intro i t ht p hp
    rw [List.getElem?_toArray] at ht
    have hparts : t.kind.parts = [] :=
      (List.mem_append.1 (List.mem_of_getElem? ht)).elim
        (TypeGraph.parts_eq_nil_of_mem_preludeTypes t) (plain t)
    rw [hparts] at hp
    cases hp

/-- The settings of a generation that drops the prefix `my`. -/
def dropsMy : GeneratorConfig := { GeneratorConfig.standard with droppedStart := some "my" }

/-- The settings of a generation whose tag is called `title`. -/
def tagsTitle : GeneratorConfig := { GeneratorConfig.standard with tagMember := "title" }

/-- A note is a record with a title beside the one that it inherits. -/
def noteSchema : Schema where
  roots := ["Note"]
  types := [
    .classType ⟨"Record", false, none, [], [⟨"myTitle", "std.String", false, []⟩]⟩,
    .classType ⟨"Note", false, some "Record", [], [⟨"title", "std.String", false, []⟩]⟩]

/-- The graph of notes. -/
def noteGraph : TypeGraph :=
  graphOf [
    ⟨"Record", classOf none [⟨"myTitle", .string, false, []⟩]⟩,
    ⟨"Note", classOf (some ⟨32⟩) [⟨"title", .string, false, []⟩]⟩] (by decide)

/-- A person declares a field again that is inherited, with another type.  Without its prefix
that field is called as one of the inherited fields is, which keeps its own name, so the members
differ. -/
def personSchema : Schema where
  roots := ["Person"]
  types := [
    .classType ⟨"Record", false, none, [],
      [⟨"myMyName", "int", false, []⟩, ⟨"myName", "int", false, []⟩]⟩,
    .classType ⟨"Person", false, some "Record", [], [⟨"myMyName", "std.String", false, []⟩]⟩]

/-- The graph of persons. -/
def personGraph : TypeGraph :=
  graphOf [
    ⟨"Record", classOf none [⟨"myMyName", Primitive.id (.scalar .int), false, []⟩,
      ⟨"myName", Primitive.id (.scalar .int), false, []⟩]⟩,
    ⟨"Person", classOf (some ⟨32⟩) [⟨"myMyName", .string, false, []⟩]⟩] (by decide)

end GraphCodec.Example
