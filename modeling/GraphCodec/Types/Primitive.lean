import GraphCodec.Scalar
import GraphCodec.Types.TypeId

/-!
# Primitive types

The types that a program has without declaring them: one for each scalar kind, and `void`, which
has no values.  A scalar kind has a boxed counterpart too, whose values may be null.
-/

namespace GraphCodec

/-- A primitive type. -/
inductive Primitive where
  | scalar (s : Scalar)
  | void
deriving DecidableEq, Repr

namespace Scalar

/-- The place of a kind among the scalar kinds. -/
def rank : Scalar → Nat
  | boolean => 0
  | byte => 1
  | char => 2
  | short => 3
  | int => 4
  | long => 5
  | float => 6
  | double => 7

/-- The name of the boxed type of a kind. -/
def boxedName : Scalar → String
  | boolean => "std.Boolean"
  | byte => "std.Byte"
  | char => "std.Character"
  | short => "std.Short"
  | int => "std.Integer"
  | long => "std.Long"
  | float => "std.Float"
  | double => "std.Double"

/-- The place of the boxed type of a kind. -/
def boxedId (s : Scalar) : TypeId := ⟨9 + s.rank⟩

end Scalar

namespace Primitive

/-- All primitive types, in the order of their places. -/
def all : List Primitive := Scalar.all.map .scalar ++ [void]

/-- The word that names a primitive type. -/
def keyword : Primitive → String
  | scalar s => s.name
  | void => "void"

/-- The primitive type that a word names. -/
def ofKeyword? (word : String) : Option Primitive := all.find? (·.keyword == word)

/-- The place of a primitive type. -/
def id : Primitive → TypeId
  | scalar s => ⟨s.rank⟩
  | void => .void

/-- The scalar kind of the values of a primitive type. -/
def scalar? : Primitive → Option Scalar
  | scalar s => some s
  | void => none

end Primitive

end GraphCodec
