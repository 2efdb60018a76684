import GraphCodec.Types.Expr.Parser

/-!
# Resolving type expressions

A type expression is resolved in a type graph: its names are looked up, and the structural types
that it speaks of are put into the graph.  Those that were put there stay when a later part of the
expression is refused.
-/

namespace GraphCodec

/-- Works on a type graph, and keeps what was done to it when it fails. -/
abbrev Resolving := ExceptT TypeExpr.Error (StateM TypeGraph)

/-- The type that a name in a type expression stands for: a primitive type, a declared type, or a
type of the package `std` by its simple name. -/
def TypeGraph.typeNamed? (g : TypeGraph) (path : String) : Option TypeId :=
  match Primitive.ofKeyword? path with
  | some p => some p.id
  | none =>
    match g.lookup? path with
    | some id => some id
    | none => if path.contains '.' then none else g.lookup? ("std." ++ path)

namespace Resolving

/-- The type that a name stands for. -/
def named (path : String) : Resolving TypeId := do
  match (← get).typeNamed? path with
  | some id => return id
  | none => throw (.unknownType path)

/-- A type applied to type arguments. -/
def parameterized (raw : TypeId) (arguments : List TypeId) : Resolving TypeId := do
  match (← get).parameterized raw arguments with
  | .ok (id, g) =>
    set g
    return id
  | .error e => throw (.declaration e)

/-- Arrays of a number of levels. -/
def arrays (element : TypeId) : Nat → Resolving TypeId
  | 0 => return element
  | dims + 1 => do
    let (id, g) := (← get).array element
    set g
    arrays id dims

end Resolving

namespace TypeExpr

mutual

/-- The type that an expression stands for. -/
def resolve : TypeExpr → Resolving TypeId
  | .mk path arguments dims => do
    let raw ← Resolving.named path
    let ids ← resolveAll arguments
    let id ← Resolving.parameterized raw ids
    Resolving.arrays id dims

/-- The types that some expressions stand for. -/
def resolveAll : List TypeExpr → Resolving (List TypeId)
  | [] => return []
  | e :: rest => do
    let id ← e.resolve
    let ids ← resolveAll rest
    return id :: ids

end

/-- Parses and resolves an expression in a graph. -/
def resolveIn (g : TypeGraph) (source : String) : Except Error TypeId × TypeGraph :=
  match parse source with
  | .error e => (.error e, g)
  | .ok e => (e.resolve.run g : Except Error TypeId × TypeGraph)

end TypeExpr

end GraphCodec
