import GraphCodec.Schema.Reader
import GraphCodec.Types.Expr.Resolve

/-!
# Loading schemas

A schema is loaded into a type graph: all types are declared first, so that declarations can speak
of each other in any order, then every class gets its superclass, interfaces and fields, and last
the roots are resolved.
-/

namespace GraphCodec

/-- A type graph with the types that codecs are wanted for. -/
structure LoadedSchema where
  graph : TypeGraph
  roots : List TypeId

/-- Why a schema cannot be loaded. -/
inductive SchemaError where
  | json (e : Json.ReadError)
  /-- A type expression is refused; the context says where it stands. -/
  | type (context : String) (e : TypeExpr.Error)
  | declaration (e : DeclarationError)
deriving DecidableEq, Repr

/-- The message of an error. -/
def SchemaError.message : SchemaError → String
  | json e => "invalid schema JSON: " ++ e.message
  | type context e => "in `" ++ context ++ "`: " ++ e.message
  | declaration e => e.message

namespace Schema

/-- A step that a declaration may refuse. -/
def declaring {α : Type} (r : Except DeclarationError α) : Except SchemaError α :=
  r.mapError .declaration

/-- Resolves a type expression that stands in a context. -/
def resolve (g : TypeGraph) (context source : String) : Except SchemaError (TypeId × TypeGraph) :=
  match TypeExpr.resolveIn g source with
  | (.ok id, g) => .ok (id, g)
  | (.error e, _) => .error (.type context e)

/-- Declares one type, as yet without anything that speaks of other types. -/
def declareType (g : TypeGraph) : TypeDecl → Except DeclarationError (TypeId × TypeGraph)
  | .classType decl => g.declareClass decl.name decl.isAbstract
  | .interfaceType decl => g.declareInterface decl.name
  | .enumType decl => g.declareEnum decl.name decl.variants
  | .libraryType name => g.declareLibraryClass name

/-- Declares types in order; the result holds their places. -/
def declareTypes (g : TypeGraph) :
    List TypeDecl → Except DeclarationError (List TypeId × TypeGraph)
  | [] => .ok ([], g)
  | decl :: rest => do
    let (id, g) ← declareType g decl
    let (ids, g) ← declareTypes g rest
    return (id :: ids, g)

/-- Gives a class its superclass. -/
def linkSuperclass (g : TypeGraph) (id : TypeId) (decl : ClassDecl) :
    Except SchemaError TypeGraph :=
  match decl.superclass with
  | none => .ok g
  | some source => do
    let (above, g) ← resolve g decl.name source
    declaring (g.setSuperclass id above)

/-- Gives a class one of its interfaces. -/
def linkInterface (id : TypeId) (decl : ClassDecl) (g : TypeGraph) (source : String) :
    Except SchemaError TypeGraph := do
  let (above, g) ← resolve g decl.name source
  declaring (g.addInterface id above)

/-- Gives a class one of its fields. -/
def linkField (id : TypeId) (decl : ClassDecl) (g : TypeGraph) (field : FieldDecl) :
    Except SchemaError TypeGraph := do
  let (type, g) ← resolve g (decl.name ++ "." ++ field.name) field.type
  declaring (g.addField id ⟨field.name, type, field.isPrivate, field.modifiers⟩)

/-- Gives a class all that its declaration says. -/
def linkClass (g : TypeGraph) (id : TypeId) (decl : ClassDecl) : Except SchemaError TypeGraph := do
  let g ← linkSuperclass g id decl
  let g ← decl.interfaces.foldlM (linkInterface id decl) g
  decl.fields.foldlM (linkField id decl) g

/-- Gives every class all that its declaration says. -/
def linkTypes (g : TypeGraph) : List (TypeDecl × TypeId) → Except SchemaError TypeGraph
  | [] => .ok g
  | (decl, id) :: rest => do
    match decl.classDecl? with
    | some decl => linkTypes (← linkClass g id decl) rest
    | none => linkTypes g rest

/-- Resolves the roots in order. -/
def resolveRoots (g : TypeGraph) : List String → Except SchemaError (List TypeId × TypeGraph)
  | [] => .ok ([], g)
  | source :: rest => do
    let (id, g) ← resolve g "roots" source
    let (ids, g) ← resolveRoots g rest
    return (id :: ids, g)

/-- Loads a schema. -/
def load (s : Schema) : Except SchemaError LoadedSchema := do
  let (ids, g) ← declaring (declareTypes .prelude s.types)
  let g ← linkTypes g (s.types.zip ids)
  let (roots, graph) ← resolveRoots g s.roots
  return ⟨graph, roots⟩

/-- Loads a schema from its text. -/
def loadText (text : String) : Except SchemaError LoadedSchema := do
  let s ← (ofText text).mapError .json
  s.load

end Schema

end GraphCodec
