import GraphCodec.Decimal.Basic

/-!
# Type identifiers

A `TypeId` is the place of a type in a type graph.  The types that every graph starts with have
fixed places, so a rule that is about one of them can name it; the types that a program declares
follow from `firstDeclared` on.
-/

namespace GraphCodec

/-- The place of a type in a type graph. -/
structure TypeId where
  index : Nat
deriving DecidableEq, Repr

namespace TypeId

/-- The type of no value. -/
def void : TypeId := ⟨8⟩

/-- The type of texts. -/
def string : TypeId := ⟨17⟩

/-- The type above all others, whose values can be of any type. -/
def object : TypeId := ⟨18⟩

/-- The type of instants. -/
def date : TypeId := ⟨19⟩

/-- The type of timestamps. -/
def timestamp : TypeId := ⟨20⟩

/-- The type of local dates. -/
def localDate : TypeId := ⟨21⟩

/-- The interface of lists. -/
def list : TypeId := ⟨22⟩

/-- A class of lists. -/
def arrayList : TypeId := ⟨23⟩

/-- The interface of sets. -/
def set : TypeId := ⟨24⟩

/-- A class of sets. -/
def hashSet : TypeId := ⟨25⟩

/-- The interface of maps. -/
def map : TypeId := ⟨26⟩

/-- A class of maps. -/
def hashMap : TypeId := ⟨27⟩

/-- The first place after the types that every graph starts with. -/
def firstReserved : Nat := 28

/-- The first place for declared types; the places before it are kept free. -/
def firstDeclared : Nat := 32

/-- Whether the place is one that every graph starts with. -/
def isPrelude (id : TypeId) : Bool := id.index < firstDeclared

/-- Whether the place is one that is kept free. -/
def isReserved (id : TypeId) : Bool := firstReserved ≤ id.index && id.index < firstDeclared

/-- Whether the type is a list, set or map without type arguments. -/
def isRawContainer (id : TypeId) : Bool := list.index ≤ id.index && id.index ≤ hashMap.index

/-- The text of a place in messages. -/
def text (id : TypeId) : String := "TypeId(" ++ Decimal.natText id.index ++ ")"

end TypeId

end GraphCodec
