import GraphCodec.Codec.Plan
import GraphCodec.Codec.Error
import GraphCodec.Text.Quoted

/-!
# Codec tables

A `CodecTable` holds the codecs of user types under their names, classes apart from enums, and the
name of the member that carries the type of a value.  Linking a plan replaces the codec of the same
sort that had the name.  A class hides an enum of the same name.

`CodecTable.chain` follows the superclasses of a class; its result runs from the topmost class down
to the class itself.
-/

namespace GraphCodec

/-- The codecs of user types by name. -/
structure CodecTable where
  /-- The member that carries the type of a value. -/
  tagMember : String
  objects : List ObjectPlan
  enums : List EnumPlan
deriving DecidableEq, Repr

namespace CodecTable

/-- The default name of the member that carries the type of a value. -/
def defaultTag : String := "_type_"

/-- A table without codecs. -/
def empty (tagMember : String) : CodecTable := ⟨tagMember, [], []⟩

/-- Links one plan. -/
def linkPlan (t : CodecTable) : CodecPlan → CodecTable
  | .object p => { t with objects := p :: t.objects.filter (·.typeName ≠ p.typeName) }
  | .enum p => { t with enums := p :: t.enums.filter (·.typeName ≠ p.typeName) }

/-- Links plans in order. -/
def link (t : CodecTable) (plans : List CodecPlan) : CodecTable := plans.foldl linkPlan t

/-- The table with the codecs of some plans. -/
def ofPlans (tagMember : String) (plans : List CodecPlan) : CodecTable :=
  (empty tagMember).link plans

/-- The codec of a class, if there is one. -/
def object? (t : CodecTable) (name : String) : Option ObjectPlan :=
  t.objects.find? (·.typeName == name)

/-- The codec of an enum, if there is one. -/
def enum? (t : CodecTable) (name : String) : Option EnumPlan :=
  t.enums.find? (·.typeName == name)

/-- The codec of a class. -/
def object (t : CodecTable) (name : String) : Except CodecError ObjectPlan :=
  match t.object? name with
  | some p => .ok p
  | none => .error (.unknownCodec name)

/-- Whether there is a codec of this name. -/
def contains (t : CodecTable) (name : String) : Bool :=
  (t.object? name).isSome || (t.enum? name).isSome

/-- The number of codecs. -/
def size (t : CodecTable) : Nat := t.objects.length + t.enums.length

/-- The text of a table: its tag and the names of its codecs, in ascending order. -/
def describe (t : CodecTable) : String :=
  "CodecTable \x7b tag_member: " ++ Text.quote t.tagMember ++
    ", objects: " ++ names (t.objects.map (·.typeName)) ++
    ", codecs: " ++ names (t.enums.map (·.typeName)) ++ " \x7d"
where
  /-- The text of a list of names. -/
  names (l : List String) : String :=
    "[" ++ String.intercalate ", " ((l.mergeSort fun a b => a ≤ b).map Text.quote) ++ "]"

/-- The superclasses of a class up to a number of steps, topmost first, and the class itself. -/
def chainWithin (t : CodecTable) : Nat → ObjectPlan → Except CodecError (List ObjectPlan)
  | 0, p => .ok [p]
  | steps + 1, p =>
    match p.superclass with
    | none => .ok [p]
    | some name => do
      let above ← t.chainWithin steps (← t.object name)
      return above ++ [p]

/-- The classes whose fields make up an object, from the topmost superclass down to the class
itself.  Without a cycle there are no more of them than classes in the table. -/
def chain (t : CodecTable) (p : ObjectPlan) : Except CodecError (List ObjectPlan) :=
  t.chainWithin t.objects.length p

/-- The fields that make up an object, inherited fields first. -/
def chainFields (t : CodecTable) (p : ObjectPlan) : Except CodecError (List FieldPlan) :=
  (t.chain p).map fun plans => plans.flatMap (·.fields)

end CodecTable

end GraphCodec
