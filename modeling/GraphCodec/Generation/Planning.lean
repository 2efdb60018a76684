import GraphCodec.Codec.Plan
import GraphCodec.Diagnostic.Basic
import GraphCodec.Generation.Classification
import GraphCodec.Generation.Registry

/-!
# Planning

A type that has been registered gets its codec plan: the codec reference of every field is chosen
by the classification of the field's type, and other types with codecs of their own are referred to
by name.

A prefix can be dropped from the names of fields when they are written, unless the class has a field
of the shorter name.
-/

namespace GraphCodec

/-- A type that the walk should have refused. -/
def Diagnostic.unplannable (typeName : String) : Diagnostic :=
  internalError ("no codec plan for `" ++ typeName ++ "`")

/-- The name of a field without a prefix, if a capital letter follows the prefix; that letter
becomes a small one. -/
def strippedName? (dropped field : String) : Option String :=
  match dropped.toList.isPrefixOf? field.toList with
  | some (c :: rest) => if c.isUpper then some (String.ofList (c.toLower :: rest)) else none
  | _ => none

/-- The name under which a field is written, beside the other fields of its class. -/
def wireName (dropped : Option String) (declared : List Field) (field : String) : String :=
  match dropped.filter (!·.isEmpty) >>= (strippedName? · field) with
  | some short => if declared.any (·.name = short) then field else short
  | none => field

namespace TypeGraph

/-- The codec reference for the values of a type. -/
def codecRef (g : TypeGraph) (id : TypeId) : Except Diagnostic CodecRef :=
  match _h : g.classify id with
  | .primitive s => .ok (.scalar s)
  | .boxed s => .ok (.scalar s)
  | .string => .ok .string
  | .date => .ok .date
  | .timestamp => .ok .timestamp
  | .localDate => .ok .localDate
  | .any => .ok .any
  | .enum => .ok (.generated (g.name id))
  | .userClass c => .ok (.generated (g.name c))
  | .sequence shape element => do
    let element ← g.codecRef element
    return .sequence shape element
  | .map key value keys =>
    match keys with
    | .text => do
      let value ← g.codecRef value
      return .textKeyMap value
    | .parsed _ => do
      let key ← g.codecRef key
      let value ← g.codecRef value
      return .parsedKeyMap key value
    | .paired => do
      let key ← g.codecRef key
      let value ← g.codecRef value
      return .pairedMap key value
  | .missingTypeArguments => .error (.unplannable (g.name id))
  | .unsupported _ => .error (.unplannable (g.name id))
termination_by id.index
decreasing_by
  all_goals
    apply index_lt_of_mem_parts (g := g)
    apply elements_classify
    rw [_h]
    simp [Classification.elements]

/-- How the values of a field are written. -/
def fieldEncoding (g : TypeGraph) (type : TypeId) : Except Diagnostic FieldEncoding :=
  match g.classify type with
  | .primitive s => .ok (.primitive s)
  | .boxed s => .ok (.boxed s)
  | .string => .ok .string
  | _ => (g.codecRef type).map .nested

/-- The plan of a field, beside the other fields of its class. -/
def fieldPlan (g : TypeGraph) (dropped : Option String) (declared : List Field) (f : Field) :
    Except Diagnostic FieldPlan := do
  return ⟨f.name, wireName dropped declared f.name, f.isPrivate, ← g.fieldEncoding f.type⟩

/-- The plan of a class or interface. -/
def objectPlan (g : TypeGraph) (dropped : Option String) (id : TypeId) :
    Except Diagnostic ObjectPlan := do
  let declared := g.serializableFields id
  let fields ← declared.mapM (g.fieldPlan dropped declared)
  return {
    typeName := g.name id
    isAbstract := g.isAbstract id
    superclass := if g.hasInheritedFields id then (g.superclass? id).map g.name else none
    subtypes := (g.concreteSubtypes id).map g.name
    fields := fields }

/-- The plan of an enum, class or interface. -/
def plan (g : TypeGraph) (dropped : Option String) (id : TypeId) : Except Diagnostic CodecPlan :=
  match g.kind id with
  | .enumType variants => .ok (.enum ⟨g.name id, variants⟩)
  | .classType _ | .interfaceType _ => (g.objectPlan dropped id).map .object
  | _ => .error (.unplannable (g.name id))

/-- Builds the plan of one registered type.  The registry shows how far that went. -/
def planRegistered (g : TypeGraph) (dropped : Option String) (id : TypeId) (r : Registry) :
    Except Diagnostic CodecPlan × Registry :=
  match r.start id with
  | .error e => (.error (.internalError e.message), r)
  | .ok r =>
    match g.plan dropped id with
    | .error d => (.error d, r)
    | .ok plan =>
      match r.complete id with
      | .error e => (.error (.internalError e.message), r)
      | .ok r => (.ok plan, r)

/-- Builds the plans of registered types in order. -/
def planEach (g : TypeGraph) (dropped : Option String) :
    List TypeId → Registry → Except Diagnostic (List CodecPlan) × Registry
  | [], r => (.ok [], r)
  | id :: rest, r =>
    match g.planRegistered dropped id r with
    | (.error d, r) => (.error d, r)
    | (.ok plan, r) =>
      match g.planEach dropped rest r with
      | (.error d, r) => (.error d, r)
      | (.ok plans, r) => (.ok (plan :: plans), r)

/-- Builds the plans of all types that have a place in the generation order. -/
def planAll (g : TypeGraph) (dropped : Option String) (r : Registry) :
    Except Diagnostic (List CodecPlan) × Registry :=
  g.planEach dropped r.order r

end TypeGraph

end GraphCodec
