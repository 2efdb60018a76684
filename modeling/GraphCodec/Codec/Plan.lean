import GraphCodec.Codec.Ref

/-!
# Codec plans

A plan is the complete description of the codec of one user type: for a class or interface the
codec of every field, the superclass to which inherited fields are left and the subtypes to which
a value can be handed on; for an enum its variants.
-/

namespace GraphCodec

/-- How the value of a field is written. -/
inductive FieldEncoding where
  /-- Never null: an unset field has the zero of the kind. -/
  | primitive (s : Scalar)
  | boxed (s : Scalar)
  | string
  | nested (c : CodecRef)
deriving DecidableEq, Repr

namespace FieldEncoding

/-- The codec of the field's values. -/
def codec : FieldEncoding → CodecRef
  | primitive s => .scalar s
  | boxed s => .scalar s
  | string => .string
  | nested c => c

/-- The kind of a field that is never null. -/
def primitive? : FieldEncoding → Option Scalar
  | primitive s => some s
  | _ => none

end FieldEncoding

/-- The plan of one field. -/
structure FieldPlan where
  name : String
  /-- The name of the member that holds the field. -/
  wireName : String
  isPrivate : Bool
  encoding : FieldEncoding
deriving DecidableEq, Repr

/-- The plan of a class or interface. -/
structure ObjectPlan where
  typeName : String
  isAbstract : Bool
  /-- The class that handles the inherited fields, if there are any. -/
  superclass : Option String
  /-- The concrete subtypes, in ascending order. -/
  subtypes : List String
  /-- The fields of the type itself, in ascending order of name. -/
  fields : List FieldPlan
deriving DecidableEq, Repr

/-- The plan of an enum. -/
structure EnumPlan where
  typeName : String
  variants : List String
deriving DecidableEq, Repr

/-- The plan of the codec of one user type. -/
inductive CodecPlan where
  | object (p : ObjectPlan)
  | enum (p : EnumPlan)
deriving DecidableEq, Repr

/-- The name of the type that a plan is for. -/
def CodecPlan.typeName : CodecPlan → String
  | object p => p.typeName
  | enum p => p.typeName

/-- Looks a name up in a sorted list by halving it. -/
def binarySearch (names : List String) (name : String) : Bool :=
  match names with
  | [] => false
  | [n] => n == name
  | n :: m :: rest =>
    let half := (n :: m :: rest).length / 2
    let back := (n :: m :: rest).drop half
    if name < back.headD n then binarySearch ((n :: m :: rest).take half) name
    else binarySearch back name
termination_by names.length
decreasing_by
  · simp only [List.length_take, List.length_cons]; omega
  · simp only [List.length_drop, List.length_cons]; omega

namespace ObjectPlan

/-- Whether the type has subtypes to which a value can be handed on. -/
def hasSubtypes (p : ObjectPlan) : Bool := !p.subtypes.isEmpty

/-- Whether a name is that of a subtype. -/
def knowsSubtype (p : ObjectPlan) (name : String) : Bool := binarySearch p.subtypes name

end ObjectPlan

end GraphCodec
