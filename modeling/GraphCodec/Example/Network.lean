import GraphCodec.Example.Kennel

/-!
# A network

A small schema with two interfaces that stand above each other, a class to which two ways lead from
them, a class without fields between two others that have some, and two classes whose names give one
identity.
-/

namespace GraphCodec.Example

/-- The schema of a network. -/
def networkSchema : Schema where
  roots := ["n$d"]
  types := [
    .interfaceType ⟨"In", false, none, ["On"], []⟩,
    .interfaceType ⟨"On", false, none, ["In"], []⟩,
    .classType ⟨"Base", true, none, ["In"], [field "key" "long"]⟩,
    .classType ⟨"n.d", false, some "Base", ["On"], []⟩,
    record "n$d" (some "n.d") [field "up" "n.d", field "at" "int"]]

/-- The types of the graph of a network. -/
def networkTypes : List TypeDescriptor :=
  TypeGraph.preludeTypes ++ [
    ⟨"In", .interfaceType { ClassBody.declared true with interfaces := [⟨33⟩] }⟩,
    ⟨"On", .interfaceType { ClassBody.declared true with interfaces := [⟨32⟩] }⟩,
    ⟨"Base", .classType { ClassBody.declared true with
      interfaces := [⟨32⟩]
      fields := [⟨"key", Primitive.id (.scalar .long), false, []⟩] }⟩,
    ⟨"n.d", .classType { ClassBody.declared false with
      superclass := some ⟨34⟩
      interfaces := [⟨33⟩] }⟩,
    ⟨"n$d", .classType { ClassBody.declared false with
      superclass := some ⟨35⟩
      fields := [⟨"up", ⟨35⟩, false, []⟩, ⟨"at", Primitive.id (.scalar .int), false, []⟩] }⟩]

/-- The graph of a network. -/
def networkGraph : TypeGraph where
  types := networkTypes.toArray
  parts_lt := by
    have h : ∀ i < networkTypes.length, ∀ p ∈ (networkTypes[i]?.getD .reserved).kind.parts,
        p.index < i := by decide
    intro i t ht p hp
    rw [List.getElem?_toArray] at ht
    have hlt : i < networkTypes.length := (List.getElem?_eq_some_iff.1 ht).1
    exact h i hlt p (by rw [ht]; exact hp)

end GraphCodec.Example
