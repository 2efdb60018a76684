import GraphCodec.Types.Hierarchy

/-!
# Declaring types

The operations that build up a type graph.  An operation that is refused yields only the reason,
so the graph stays as it was.  Array types and types with arguments are shared: asking for one that
is there yields its place.
-/

namespace GraphCodec

/-- Why a declaration is refused. -/
inductive DeclarationError where
  | duplicateType (name : String)
  | notAClass (name : String)
  | arityMismatch (raw : String) (expected found : Nat)
  | superclassCycle (name : String)
deriving DecidableEq, Repr

/-- The message of an error. -/
def DeclarationError.message : DeclarationError → String
  | duplicateType name => "type `" ++ name ++ "` is declared twice"
  | notAClass name => "`" ++ name ++ "` is not a class or interface"
  | arityMismatch raw expected found =>
    "`" ++ raw ++ "` expects " ++ Decimal.natText expected ++ " type argument(s), found " ++
      Decimal.natText found
  | superclassCycle name => "`" ++ name ++ "` would become its own superclass"

namespace TypeGraph

/-- The place that the next type gets. -/
def next (g : TypeGraph) : TypeId := ⟨g.size⟩

/-- Puts a type that is made of no others at the next place, unless its name is taken. -/
def declare (g : TypeGraph) (t : TypeDescriptor) (parts : t.kind.parts = []) :
    Except DeclarationError (TypeId × TypeGraph) :=
  if (g.lookup? t.name).isSome then .error (.duplicateType t.name)
  else .ok (g.next, g.push t (by simp [parts]))

/-- Declares a class without fields. -/
def declareClass (g : TypeGraph) (name : String) (isAbstract : Bool) :
    Except DeclarationError (TypeId × TypeGraph) :=
  g.declare ⟨name, .classType (.declared isAbstract)⟩ rfl

/-- Declares an interface. -/
def declareInterface (g : TypeGraph) (name : String) :
    Except DeclarationError (TypeId × TypeGraph) :=
  g.declare ⟨name, .interfaceType (.declared true)⟩ rfl

/-- Declares a class of a library. -/
def declareLibraryClass (g : TypeGraph) (name : String) :
    Except DeclarationError (TypeId × TypeGraph) :=
  g.declare ⟨name, .classType (.library false 0)⟩ rfl

/-- Declares an enum. -/
def declareEnum (g : TypeGraph) (name : String) (variants : List String) :
    Except DeclarationError (TypeId × TypeGraph) :=
  g.declare ⟨name, .enumType variants⟩ rfl

/-- What a class or interface declares; other types are refused. -/
def body (g : TypeGraph) (id : TypeId) : Except DeclarationError ClassBody :=
  match g.classBody? id with
  | some body => .ok body
  | none => .error (.notAClass (g.name id))

/-- Puts a class below a superclass.  No class may come to be above itself. -/
def setSuperclass (g : TypeGraph) (id above : TypeId) : Except DeclarationError TypeGraph := do
  let _ ← g.body above
  let body ← g.body id
  if id = above ∨ id ∈ g.ancestors above then .error (.superclassCycle (g.name id))
  else return g.setBody id { body with superclass := some above }

/-- Puts a class below an interface. -/
def addInterface (g : TypeGraph) (id above : TypeId) : Except DeclarationError TypeGraph := do
  let _ ← g.body above
  let body ← g.body id
  return g.setBody id { body with interfaces := body.interfaces ++ [above] }

/-- Makes a class abstract, or concrete. -/
def setAbstract (g : TypeGraph) (id : TypeId) (isAbstract : Bool) :
    Except DeclarationError TypeGraph := do
  let body ← g.body id
  return g.setBody id { body with isAbstract := isAbstract }

/-- Adds a field to a class. -/
def addField (g : TypeGraph) (id : TypeId) (field : Field) :
    Except DeclarationError TypeGraph := do
  let body ← g.body id
  return g.setBody id { body with fields := body.fields ++ [field] }

/-- The place of a structural type, which is put there if it is not in the graph yet.  A type that
is made of places outside of the graph is not put anywhere. -/
def intern (g : TypeGraph) (t : TypeDescriptor) : TypeId × TypeGraph :=
  match g.places.find? fun id => g.kind id = t.kind with
  | some id => (id, g)
  | none =>
    if h : ∀ p ∈ t.kind.parts, p.index < g.size then (g.next, g.push t h) else (g.next, g)

/-- The type of arrays of a component type. -/
def array (g : TypeGraph) (component : TypeId) : TypeId × TypeGraph :=
  g.intern ⟨g.name component ++ "[]", .arrayType component⟩

/-- A class or interface applied to type arguments.  Without arguments it stays as it is, also if
it has type parameters. -/
def parameterized (g : TypeGraph) (raw : TypeId) (arguments : List TypeId) :
    Except DeclarationError (TypeId × TypeGraph) :=
  if arguments.isEmpty then .ok (raw, g)
  else do
    let body ← g.body raw
    if body.arity ≠ 0 ∧ body.arity ≠ arguments.length then
      .error (.arityMismatch (g.name raw) body.arity arguments.length)
    else
      return g.intern {
        name := g.name raw ++ "<" ++ String.intercalate ", " (arguments.map g.name) ++ ">"
        kind := .parameterized raw arguments }

end TypeGraph

end GraphCodec
