import GraphCodec.Types.Graph
import GraphCodec.Types.Reach

/-!
# The class hierarchy

What a type graph says about the classes and interfaces above and below a type, and about the
fields that take part in its written form.
-/

namespace GraphCodec

namespace TypeGraph

/-- The superclasses of a class, nearest first, up to a number of steps. -/
def ancestorsWithin (g : TypeGraph) : Nat → TypeId → List TypeId
  | 0, _ => []
  | steps + 1, id =>
    match g.superclass? id with
    | none => []
    | some above => above :: g.ancestorsWithin steps above

/-- The superclasses of a class, nearest first.  Without a cycle there are fewer of them than
types. -/
def ancestors (g : TypeGraph) (id : TypeId) : List TypeId := g.ancestorsWithin g.size id

/-- The classes and interfaces that name a type as being above them. -/
def directSubtypes (g : TypeGraph) (id : TypeId) : List TypeId :=
  g.places.filter fun sub => id ∈ (g.kind sub).parents

/-- Types in ascending order of name. -/
def sortByName (g : TypeGraph) (ids : List TypeId) : List TypeId :=
  ids.mergeSort fun a b => g.name a ≤ g.name b

/-- The classes and interfaces below a type, directly or not, in ascending order of name. -/
def subtypes (g : TypeGraph) (id : TypeId) : List TypeId :=
  g.sortByName (reach g.directSubtypes (g.places.erase id) (g.directSubtypes id))

/-- The subtypes that have instances of their own. -/
def concreteSubtypes (g : TypeGraph) (id : TypeId) : List TypeId :=
  (g.subtypes id).filter fun sub => !g.isAbstract sub

/-- Whether no value can be an instance of a class. -/
def lacksInstances (g : TypeGraph) (id : TypeId) : Bool :=
  g.isAbstract id && (g.concreteSubtypes id).isEmpty

/-- The fields that a class itself declares and that take part in the written form, in ascending
order of name. -/
def serializableFields (g : TypeGraph) (id : TypeId) : List Field :=
  match g.classBody? id with
  | some body => (body.fields.filter (·.isSerializable)).mergeSort fun a b => a.name ≤ b.name
  | none => []

/-- Whether a superclass below the topmost type adds fields to the written form. -/
def hasInheritedFields (g : TypeGraph) (id : TypeId) : Bool :=
  ((g.ancestors id).takeWhile (· ≠ .object)).any fun above =>
    !(g.serializableFields above).isEmpty

end TypeGraph

end GraphCodec
