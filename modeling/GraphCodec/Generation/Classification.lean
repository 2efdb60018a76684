import GraphCodec.Types.Hierarchy

/-!
# Classification of types

The classification of a type says which codec writes its values.  A container without its type
arguments has none, nor has `void`, nor an array of arrays of scalars, nor a class of a library
that the codecs do not know.
-/

namespace GraphCodec

/-- Why a type has no codec. -/
inductive Unsupported where
  | void
  | nestedScalarArray
  | unknownLibraryType
deriving DecidableEq, Repr

/-- The reason in messages. -/
def Unsupported.reason : Unsupported → String
  | void => "`void` has no values"
  | nestedScalarArray => "multi-dimensional arrays of primitives are not supported"
  | unknownLibraryType => "standard library type has no registered codec"

/-- How the keys of a map are written. -/
inductive MapKeys where
  /-- Texts are the names of members as they are. -/
  | text
  /-- Scalars are written as names of members, and parsed when they are read. -/
  | parsed (s : Scalar)
  /-- Other keys are written in an array beside that of the values. -/
  | paired
deriving DecidableEq, Repr

/-- Which codec writes the values of a type. -/
inductive Classification where
  | primitive (s : Scalar)
  | boxed (s : Scalar)
  | string
  | enum
  | sequence (shape : Shape) (element : TypeId)
  | map (key value : TypeId) (keys : MapKeys)
  | date
  | timestamp
  | localDate
  /-- The type of all values. -/
  | any
  /-- A class or interface of the program, without its type arguments. -/
  | userClass (id : TypeId)
  | missingTypeArguments
  | unsupported (why : Unsupported)
deriving DecidableEq, Repr

namespace Classification

/-- Whether values are written by a codec of their own. -/
def needsCodec : Classification → Bool
  | enum | userClass _ => true
  | _ => false

/-- Whether there is no codec. -/
def isError : Classification → Bool
  | missingTypeArguments | unsupported _ => true
  | _ => false

/-- Whether values are written by a codec that is always there, so none needs to be generated. -/
def isBuiltIn : Classification → Bool
  | primitive _ | boxed _ | string | date | timestamp | localDate | any => true
  | _ => false

/-- The types of the elements of a sequence, or of the keys and values of a map. -/
def elements : Classification → List TypeId
  | sequence _ element => [element]
  | map key value _ => [key, value]
  | _ => []

end Classification

namespace TypeGraph

/-- The type of the innermost components of an array; other types are their own. -/
def leaf (g : TypeGraph) (id : TypeId) : TypeId :=
  match _h : g.kind id with
  | .arrayType component => g.leaf component
  | _ => id
termination_by id.index
decreasing_by
  apply index_lt_of_mem_parts (g := g)
  rw [_h]
  simp [TypeKind.parts]

/-- The scalar kind of a primitive or boxed type. -/
def scalar? (g : TypeGraph) (id : TypeId) : Option Scalar :=
  match g.kind id with
  | .primitive p => p.scalar?
  | .boxed s => some s
  | _ => none

/-- Whether a type is an array type. -/
def isArray (g : TypeGraph) (id : TypeId) : Bool :=
  match g.kind id with
  | .arrayType _ => true
  | _ => false

/-- The classification of arrays of a component type. -/
def classifyArray (g : TypeGraph) (component : TypeId) : Classification :=
  if g.isArray component && (g.scalar? (g.leaf component)).isSome then
    .unsupported .nestedScalarArray
  else .sequence .array component

/-- How keys of a type are written. -/
def mapKeys (g : TypeGraph) (key : TypeId) : MapKeys :=
  if key = .string then .text
  else
    match g.scalar? key with
    | some s => .parsed s
    | none => .paired

/-- The classification of a class or interface without type arguments. -/
def classifyClass (id : TypeId) (body : ClassBody) : Classification :=
  if id.isRawContainer then .missingTypeArguments
  else if id = .string then .string
  else if id = .date then .date
  else if id = .timestamp then .timestamp
  else if id = .localDate then .localDate
  else if id = .object then .any
  else if body.isLibrary then .unsupported .unknownLibraryType
  else .userClass id

/-- The classification of a class or interface that is applied to type arguments. -/
def classifyApplied (g : TypeGraph) (raw : TypeId) (arguments : List TypeId) : Classification :=
  if raw = .list ∨ raw = .arrayList then
    match arguments with
    | [element] => .sequence .list element
    | _ => .missingTypeArguments
  else if raw = .set ∨ raw = .hashSet then
    match arguments with
    | [element] => .sequence .set element
    | _ => .missingTypeArguments
  else if raw = .map ∨ raw = .hashMap then
    match arguments with
    | [key, value] => .map key value (g.mapKeys key)
    | _ => .missingTypeArguments
  else
    match g.classBody? raw with
    | some body => classifyClass raw body
    | none => .missingTypeArguments

/-- The classification of a type. -/
def classify (g : TypeGraph) (id : TypeId) : Classification :=
  match g.kind id with
  | .primitive .void => .unsupported .void
  | .primitive (.scalar s) => .primitive s
  | .boxed s => .boxed s
  | .enumType _ => .enum
  | .arrayType component => g.classifyArray component
  | .parameterized raw arguments => g.classifyApplied raw arguments
  | .classType body | .interfaceType body => classifyClass id body

/-- The type arguments of a type that is a class or interface applied to them. -/
def typeArguments (g : TypeGraph) (id : TypeId) : List TypeId :=
  match g.kind id with
  | .parameterized _ arguments => arguments
  | _ => []

/-- The types that stand inside a type: the elements of a sequence, the keys and values of a map,
the type arguments of a class. -/
def positions (g : TypeGraph) (id : TypeId) : List TypeId :=
  match g.classify id with
  | .userClass _ => g.typeArguments id
  | c => c.elements

/-- A class has no elements. -/
theorem elements_classifyClass (id : TypeId) (body : ClassBody) :
    (classifyClass id body).elements = [] := by
  unfold classifyClass
  repeat' split
  all_goals rfl

/-- The only element of an array is its component. -/
theorem elements_classifyArray {g : TypeGraph} {component : TypeId} :
    ∀ p ∈ (g.classifyArray component).elements, p = component := by
  unfold classifyArray
  split <;> simp [Classification.elements]

/-- The elements of an applied container are among its type arguments. -/
theorem elements_classifyApplied {g : TypeGraph} {raw : TypeId} {arguments : List TypeId} :
    ∀ p ∈ (g.classifyApplied raw arguments).elements, p ∈ arguments := by
  unfold classifyApplied
  -- The lists, then the sets, then the maps, then classes with parameters of their own.
  split
  · split <;> simp [Classification.elements]
  split
  · split <;> simp [Classification.elements]
  split
  · split <;> simp [Classification.elements]
  split
  · simp [elements_classifyClass]
  · simp [Classification.elements]

/-- The elements of a classification are parts of the type. -/
theorem elements_classify {g : TypeGraph} {id : TypeId} :
    ∀ p ∈ (g.classify id).elements, p ∈ (g.kind id).parts := by
  intro p hp
  unfold classify at hp
  -- Only an array and an application have parts.
  cases hk : g.kind id with
  | primitive q => cases q <;> simp [hk, Classification.elements] at hp
  | boxed s => simp [hk, Classification.elements] at hp
  | enumType v => simp [hk, Classification.elements] at hp
  | classType body => simp [hk, elements_classifyClass] at hp
  | interfaceType body => simp [hk, elements_classifyClass] at hp
  | arrayType c =>
    rw [hk] at hp
    simp [TypeKind.parts, elements_classifyArray p hp]
  | parameterized raw arguments =>
    rw [hk] at hp
    simp [TypeKind.parts, elements_classifyApplied p hp]

/-- The type arguments are parts of the type. -/
theorem typeArguments_subset {g : TypeGraph} {id : TypeId} :
    ∀ p ∈ g.typeArguments id, p ∈ (g.kind id).parts := by
  intro p hp
  unfold typeArguments at hp
  split at hp
  · rename_i raw arguments hk
    simp [hk, TypeKind.parts, hp]
  · simp at hp

/-- The positions inside a type are parts of it. -/
theorem mem_parts_of_mem_positions {g : TypeGraph} {id p : TypeId} (h : p ∈ g.positions id) :
    p ∈ (g.kind id).parts := by
  unfold positions at h
  split at h
  · exact typeArguments_subset p h
  · exact elements_classify p h

/-- What stands inside a type has a smaller place, so going inward ends. -/
theorem index_lt_of_mem_positions {g : TypeGraph} {id p : TypeId} (h : p ∈ g.positions id) :
    p.index < id.index :=
  index_lt_of_mem_parts (mem_parts_of_mem_positions h)

end TypeGraph

end GraphCodec
