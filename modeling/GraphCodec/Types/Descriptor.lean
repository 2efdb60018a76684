import GraphCodec.Types.Primitive

/-!
# Type descriptors

A `TypeDescriptor` is the shape of one type: its qualified name and what sort of type it is, with
the types that it is made of given by their places.
-/

namespace GraphCodec

/-- What a field was declared to be; every one of these keeps the field out of the written form. -/
inductive Modifier where
  | static
  | final
  | transient
  | skip
deriving DecidableEq, Repr

namespace Modifier

/-- All modifiers. -/
def all : List Modifier := [static, final, transient, skip]

/-- The word for a modifier. -/
def keyword : Modifier → String
  | static => "static"
  | final => "final"
  | transient => "transient"
  | skip => "skip"

end Modifier

/-- A field of a class. -/
structure Field where
  name : String
  type : TypeId
  isPrivate : Bool
  modifiers : List Modifier
deriving DecidableEq, Repr

/-- Whether a field takes part in the written form of an object. -/
def Field.isSerializable (f : Field) : Bool := f.modifiers.isEmpty

/-- What a class or interface declares. -/
structure ClassBody where
  /-- Whether a library declares the class, and not the program whose values are written. -/
  isLibrary : Bool
  isAbstract : Bool
  superclass : Option TypeId
  interfaces : List TypeId
  /-- The number of type parameters; zero stands for any number. -/
  arity : Nat
  fields : List Field
deriving DecidableEq, Repr

/-- A class that a program declares, without fields yet. -/
def ClassBody.declared (isAbstract : Bool) : ClassBody := ⟨false, isAbstract, none, [], 0, []⟩

/-- A class of a library with a number of type parameters. -/
def ClassBody.library (isAbstract : Bool) (arity : Nat) : ClassBody :=
  ⟨true, isAbstract, none, [], arity, []⟩

/-- The sorts of types. -/
inductive TypeKind where
  | primitive (p : Primitive)
  | boxed (s : Scalar)
  | classType (body : ClassBody)
  | interfaceType (body : ClassBody)
  | enumType (variants : List String)
  | arrayType (component : TypeId)
  /-- A class or interface applied to type arguments. -/
  | parameterized (raw : TypeId) (arguments : List TypeId)
deriving DecidableEq, Repr

namespace TypeKind

/-- What a class or interface declares. -/
def classBody? : TypeKind → Option ClassBody
  | classType body => some body
  | interfaceType body => some body
  | _ => none

/-- Puts another body into a class or interface. -/
def withBody (kind : TypeKind) (body : ClassBody) : TypeKind :=
  match kind with
  | classType _ => classType body
  | interfaceType _ => interfaceType body
  | kind => kind

/-- The types that a structural type is made of. -/
def parts : TypeKind → List TypeId
  | arrayType component => [component]
  | parameterized raw arguments => raw :: arguments
  | _ => []

/-- The classes and interfaces that a class or interface names as being above it. -/
def parents (kind : TypeKind) : List TypeId :=
  match kind.classBody? with
  | some body => body.superclass.toList ++ body.interfaces
  | none => []

/-- Giving a kind another body leaves its parts as they are. -/
theorem parts_withBody (kind : TypeKind) (body : ClassBody) :
    (kind.withBody body).parts = kind.parts := by
  cases kind <;> rfl

end TypeKind

/-- A type with its qualified name. -/
structure TypeDescriptor where
  name : String
  kind : TypeKind
deriving DecidableEq, Repr

namespace TypeDescriptor

/-- The name after its last dot, without type arguments. -/
def simpleName (t : TypeDescriptor) : String :=
  let base := t.name.toList.takeWhile (· ≠ '<')
  String.ofList (base.reverse.takeWhile (· ≠ '.')).reverse

/-- What stands at a place that is kept free: a library class without a name. -/
def reserved : TypeDescriptor := ⟨"", .classType (.library false 0)⟩

end TypeDescriptor

end GraphCodec
