import GraphCodec.Types.Descriptor

/-!
# Schema declarations

A schema lists the types of a program and the roots, which are the types that codecs are wanted
for.  Types are named by type expressions that have not been looked at yet.
-/

namespace GraphCodec

/-- A declared field. -/
structure FieldDecl where
  name : String
  /-- The type expression of the field. -/
  type : String
  isPrivate : Bool
  modifiers : List Modifier
deriving DecidableEq, Repr

/-- A declared class or interface. -/
structure ClassDecl where
  name : String
  isAbstract : Bool
  superclass : Option String
  interfaces : List String
  fields : List FieldDecl
deriving DecidableEq, Repr

/-- A declared enum. -/
structure EnumDecl where
  name : String
  variants : List String
deriving DecidableEq, Repr

/-- A declared type. -/
inductive TypeDecl where
  | classType (decl : ClassDecl)
  | interfaceType (decl : ClassDecl)
  | enumType (decl : EnumDecl)
  /-- A class of a library that has no codec. -/
  | libraryType (name : String)
deriving DecidableEq, Repr

namespace TypeDecl

/-- The name of a declared type. -/
def name : TypeDecl → String
  | classType decl => decl.name
  | interfaceType decl => decl.name
  | enumType decl => decl.name
  | libraryType name => name

/-- What is declared, if it is a class or an interface. -/
def classDecl? : TypeDecl → Option ClassDecl
  | classType decl => some decl
  | interfaceType decl => some decl
  | enumType _ | libraryType _ => none

end TypeDecl

/-- The types of a program and the roots among them. -/
structure Schema where
  roots : List String
  types : List TypeDecl
deriving DecidableEq, Repr

end GraphCodec
