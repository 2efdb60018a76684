import GraphCodec.Types.Descriptor

/-!
# Type graphs

A `TypeGraph` holds all types that a program speaks of, each at the place of its `TypeId`.  A
structural type is only made of types at smaller places (`TypeGraph.parts_lt`), so what goes from a
type to its parts ends; classes may refer to each other freely.

A name belongs to the last type that took it.
-/

namespace GraphCodec

/-- The types that a program speaks of. -/
structure TypeGraph where
  types : Array TypeDescriptor
  parts_lt : ∀ (i : Nat) (t : TypeDescriptor), types[i]? = some t →
    ∀ p ∈ t.kind.parts, p.index < i

namespace TypeGraph

/-- The number of places. -/
def size (g : TypeGraph) : Nat := g.types.size

/-- The type at a place; a place outside of the graph counts as one that is kept free. -/
def descriptor (g : TypeGraph) (id : TypeId) : TypeDescriptor :=
  g.types[id.index]?.getD .reserved

/-- The sort of a type. -/
def kind (g : TypeGraph) (id : TypeId) : TypeKind := (g.descriptor id).kind

/-- The qualified name of a type. -/
def name (g : TypeGraph) (id : TypeId) : String := (g.descriptor id).name

/-- A part of a type stands at a smaller place. -/
theorem index_lt_of_mem_parts {g : TypeGraph} {id p : TypeId} (h : p ∈ (g.kind id).parts) :
    p.index < id.index := by
  unfold kind descriptor at h
  cases ht : g.types[id.index]? with
  -- A place behind the end holds the reserved type, which has no parts.
  | none => simp [ht, TypeDescriptor.reserved, TypeKind.parts] at h
  | some t =>
    rw [ht] at h
    exact g.parts_lt _ _ ht p h

/-- All places, in ascending order. -/
def places (g : TypeGraph) : List TypeId := (List.range g.size).map .mk

/-- The type that a name belongs to, if there is one. -/
def lookup? (g : TypeGraph) (name : String) : Option TypeId :=
  g.places.reverse.find? fun id => !id.isReserved && g.name id == name

/-- The types that can be found by their names, in ascending order. -/
def ids (g : TypeGraph) : List TypeId :=
  g.places.filter fun id => g.lookup? (g.name id) = some id

/-- What a type declares, if it is a class or an interface. -/
def classBody? (g : TypeGraph) (id : TypeId) : Option ClassBody := (g.kind id).classBody?

/-- Whether a type is an interface. -/
def isInterface (g : TypeGraph) (id : TypeId) : Bool :=
  match g.kind id with
  | .interfaceType _ => true
  | _ => false

/-- Whether a type is a class without instances of its own; every interface is one. -/
def isAbstract (g : TypeGraph) (id : TypeId) : Bool :=
  match g.kind id with
  | .interfaceType _ => true
  | .classType body => body.isAbstract
  | _ => false

/-- The superclass of a class, if it has one. -/
def superclass? (g : TypeGraph) (id : TypeId) : Option TypeId :=
  (g.classBody? id).bind (·.superclass)

/-! ### The types that every graph starts with -/

/-- The types that every graph starts with, and the places after them that are kept free. -/
def preludeTypes : List TypeDescriptor :=
  Primitive.all.map (fun p => ⟨p.keyword, .primitive p⟩) ++
  Scalar.all.map (fun s => ⟨s.boxedName, .boxed s⟩) ++
  [⟨"std.String", .classType (.library false 0)⟩,
    ⟨"std.Object", .classType (.library false 0)⟩,
    ⟨"std.Date", .classType (.library false 0)⟩,
    ⟨"std.Timestamp", .classType (.library false 0)⟩,
    ⟨"std.LocalDate", .classType (.library false 0)⟩,
    ⟨"std.List", .interfaceType (.library true 1)⟩,
    ⟨"std.ArrayList", .classType (.library false 1)⟩,
    ⟨"std.Set", .interfaceType (.library true 1)⟩,
    ⟨"std.HashSet", .classType (.library false 1)⟩,
    ⟨"std.Map", .interfaceType (.library true 2)⟩,
    ⟨"std.HashMap", .classType (.library false 2)⟩] ++
  List.replicate (TypeId.firstDeclared - TypeId.firstReserved) .reserved

theorem parts_eq_nil_of_mem_preludeTypes :
    ∀ t ∈ preludeTypes, t.kind.parts = [] := by decide

/-- The graph without declared types. -/
def prelude : TypeGraph where
  types := preludeTypes.toArray
  parts_lt := by
    intro i t ht p hp
    have := parts_eq_nil_of_mem_preludeTypes t (by
      rw [List.getElem?_toArray] at ht
      exact List.mem_of_getElem? ht)
    simp [this] at hp

/-! ### Changes -/

/-- Puts a type that is made of types of the graph at the next place. -/
def push (g : TypeGraph) (t : TypeDescriptor) (parts : ∀ p ∈ t.kind.parts, p.index < g.size) :
    TypeGraph where
  types := g.types.push t
  parts_lt := by
    intro i u hu p hp
    rw [Array.getElem?_push] at hu
    split at hu
    · simp only [Option.some.injEq] at hu
      subst hu
      have := parts p hp
      unfold size at this
      omega
    · exact g.parts_lt i u hu p hp

/-- Puts another body into a class or interface. -/
def setBody (g : TypeGraph) (id : TypeId) (body : ClassBody) : TypeGraph where
  types := g.types.modify id.index fun t => { t with kind := t.kind.withBody body }
  parts_lt := by
    intro i u hu p hp
    rw [Array.getElem?_modify] at hu
    split at hu
    · obtain ⟨t, ht, rfl⟩ := Option.map_eq_some_iff.1 hu
      rw [TypeKind.parts_withBody] at hp
      exact g.parts_lt i t ht p hp
    · exact g.parts_lt i u hu p hp

end TypeGraph

end GraphCodec
