import GraphCodec.Example.Kennel

/-!
# A stock of boxes

A small schema with an interface, and the same schema written down in another order.
-/

namespace GraphCodec.Example

/-- The schema of a stock. -/
def stockSchema : Schema where
  roots := ["Shelf"]
  types := [
    .interfaceType ⟨"Labelled", false, none, [], []⟩,
    .classType ⟨"Box", false, none, ["Labelled"],
      [field "label" "std.String", field "width" "int"]⟩,
    record "Crate" (some "Box") [field "contents" "std.List<Box>"],
    record "Shelf" none [field "boxes" "Box[]", field "first" "Labelled"]]

/-- The schema of a stock with its types from last to first, where boxes say twice what they are. -/
def stockSchemaReversed : Schema where
  roots := ["Shelf"]
  types := [
    record "Shelf" none [field "first" "Labelled", field "boxes" "Box[]"],
    record "Crate" (some "Box") [field "contents" "std.List<Box>"],
    .classType ⟨"Box", false, none, ["Labelled", "Labelled"],
      [field "width" "int", field "label" "std.String"]⟩,
    .interfaceType ⟨"Labelled", false, none, [], []⟩]

end GraphCodec.Example
