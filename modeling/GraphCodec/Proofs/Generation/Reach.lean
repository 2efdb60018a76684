import GraphCodec.Generation.Planning
import GraphCodec.Generation.Walk
import GraphCodec.Proofs.Types.Built

/-!
# What is reachable from roots

`TypeGraph.Reach` is the least set of types that holds the roots and everything that the values of
its types can be made of.  A class of the program is opened: its superclass if that adds fields, its
subtypes and the types of its serializable fields are reachable.  Types with a codec that is always
there, `std.Object` among them, are not.

`TypeGraph.Supported` says when nothing that is reachable stands in the way of generation, which can
be checked for a graph (`supported_of_checkSupported`).  A type that is reachable and supported has
a codec reference (`exists_codecRef`).
-/

namespace GraphCodec

namespace TypeGraph

variable {g : TypeGraph} {roots : List TypeId} {id : TypeId}

/-- The enum or class of the program whose codec writes the values of a type. -/
def WrittenBy (g : TypeGraph) (id c : TypeId) : Prop :=
  g.classify id = .enum ∧ c = id ∨ g.classify id = .userClass c

/-- The types that can be reached from roots. -/
inductive Reach (g : TypeGraph) (roots : List TypeId) : TypeId → Prop where
  | root {id : TypeId} : id ∈ roots → Reach g roots id
  | component {id component : TypeId} :
    Reach g roots id → g.kind id = .arrayType component → Reach g roots component
  | element {id element : TypeId} {shape : Shape} :
    Reach g roots id → g.classify id = .sequence shape element → Reach g roots element
  | key {id key value : TypeId} {keys : MapKeys} :
    Reach g roots id → g.classify id = .map key value keys → Reach g roots key
  | value {id key value : TypeId} {keys : MapKeys} :
    Reach g roots id → g.classify id = .map key value keys → Reach g roots value
  | argument {id c raw argument : TypeId} {arguments : List TypeId} :
    Reach g roots id → g.classify id = .userClass c →
      g.kind id = .parameterized raw arguments → argument ∈ arguments → Reach g roots argument
  | rawClass {id c : TypeId} :
    Reach g roots id → g.classify id = .userClass c → Reach g roots c
  | superclass {id above : TypeId} :
    Reach g roots id → g.classify id = .userClass id → g.hasInheritedFields id →
      g.superclass? id = some above → Reach g roots above
  | subtype {id sub : TypeId} :
    Reach g roots id → g.classify id = .userClass id → sub ∈ g.subtypes id → Reach g roots sub
  | field {id : TypeId} {f : Field} :
    Reach g roots id → g.classify id = .userClass id → f ∈ g.serializableFields id →
      Reach g roots f.type

/-- Whether a type is a map with arbitrary keys of a class that has no instances. -/
def HasEmptyKeys (g : TypeGraph) (id : TypeId) : Prop :=
  ∃ key value c, g.classify id = .map key value .paired ∧ g.classify key = .userClass c ∧
    g.isAbstract c ∧ g.concreteSubtypes c = []

/-- Whether everything that can be reached from roots has a codec. -/
structure Supported (g : TypeGraph) (roots : List TypeId) : Prop where
  /-- No root has a codec that is always there. -/
  not_builtIn : ∀ root ∈ roots, (g.classify root).isBuiltIn = false
  /-- Every root that is a class has instances. -/
  root_instances : ∀ root ∈ roots, ∀ c, g.classify root = .userClass c →
    ¬(g.isAbstract c ∧ g.concreteSubtypes c = [])
  /-- Every reachable type has a codec. -/
  not_error : ∀ id, g.Reach roots id → (g.classify id).isError = false
  /-- Every reachable map has keys. -/
  keys : ∀ id, g.Reach roots id → ¬g.HasEmptyKeys id

/-- A class lacks instances exactly if it is abstract and has no concrete subtypes. -/
theorem lacksInstances_iff :
    g.lacksInstances id = true ↔ g.isAbstract id ∧ g.concreteSubtypes id = [] := by
  rw [lacksInstances, Bool.and_eq_true, List.isEmpty_iff]

/-! ### Classifications that need a codec -/

/-- A class that is classified as one of the program. -/
theorem classifyClass_eq_userClass {body : ClassBody} {c : TypeId}
    (h : classifyClass id body = .userClass c) : c = id ∧ body.isLibrary = false := by
  unfold classifyClass at h
  repeat' split at h
  all_goals try contradiction
  case isFalse hlib =>
    cases h
    exact ⟨rfl, Bool.eq_false_iff.2 hlib⟩

/-- An applied class that is classified as one of the program is its raw class. -/
private theorem classifyApplied_eq_userClass {raw c : TypeId} {arguments : List TypeId}
    (h : g.classifyApplied raw arguments = .userClass c) :
    ∃ body, g.classBody? raw = some body ∧ classifyClass raw body = .userClass c := by
  unfold classifyApplied at h
  repeat' split at h
  all_goals try contradiction
  case h_1 body hbody => exact ⟨body, hbody, h⟩

/-- A class of the program, and what is written by its codec: the class, or an application of it to
type arguments. -/
theorem classify_eq_userClass {c : TypeId} (h : g.classify id = .userClass c) :
    ∃ body, g.classBody? c = some body ∧ body.isLibrary = false ∧
      classifyClass c body = .userClass c ∧
        (id = c ∨ ∃ arguments, g.kind id = .parameterized c arguments) := by
  unfold classify at h
  -- Arrays and leaves are no classes; an application is classified as its raw class is.
  cases hk : g.kind id with
  | primitive p => cases p <;> simp [hk] at h
  | boxed s => simp [hk] at h
  | enumType variants => simp [hk] at h
  | arrayType component =>
    rw [hk] at h
    dsimp only [classifyArray] at h
    split at h <;> contradiction
  | parameterized raw arguments =>
    rw [hk] at h
    obtain ⟨body, hbody, hclass⟩ := classifyApplied_eq_userClass h
    obtain ⟨rfl, hlib⟩ := classifyClass_eq_userClass hclass
    exact ⟨body, hbody, hlib, hclass, Or.inr ⟨arguments, rfl⟩⟩
  | classType body =>
    rw [hk] at h
    obtain ⟨rfl, hlib⟩ := classifyClass_eq_userClass h
    exact ⟨body, by rw [classBody?, hk]; rfl, hlib, h, Or.inl rfl⟩
  | interfaceType body =>
    rw [hk] at h
    obtain ⟨rfl, hlib⟩ := classifyClass_eq_userClass h
    exact ⟨body, by rw [classBody?, hk]; rfl, hlib, h, Or.inl rfl⟩

/-- A class or interface is classified as such. -/
theorem classify_of_classBody? {body : ClassBody} (h : g.classBody? id = some body) :
    g.classify id = classifyClass id body := by
  unfold classBody? at h
  unfold classify
  cases hk : g.kind id with
  | classType b =>
    rw [hk] at h
    cases h
    rfl
  | interfaceType b =>
    rw [hk] at h
    cases h
    rfl
  | _ =>
    rw [hk] at h
    cases h

/-- The class that writes the values of a type is written by its own codec. -/
theorem classify_userClass_self {c : TypeId} (h : g.classify id = .userClass c) :
    g.classify c = .userClass c := by
  obtain ⟨body, hbody, _, hself, _⟩ := classify_eq_userClass h
  rw [classify_of_classBody? hbody, hself]

/-- No class is classified as an enum. -/
private theorem classifyClass_ne_enum (id : TypeId) (body : ClassBody) :
    classifyClass id body ≠ .enum := by
  intro h
  unfold classifyClass at h
  repeat' split at h
  all_goals contradiction

/-- What is classified as an enum is one. -/
theorem classify_eq_enum (h : g.classify id = .enum) :
    ∃ variants, g.kind id = .enumType variants := by
  unfold classify at h
  -- Only the kind of an enum is classified as one.
  cases hk : g.kind id with
  | enumType variants => exact ⟨variants, rfl⟩
  | primitive p => cases p <;> simp [hk] at h
  | boxed s => simp [hk] at h
  | arrayType component =>
    rw [hk] at h
    dsimp only [classifyArray] at h
    split at h <;> contradiction
  | parameterized raw arguments =>
    rw [hk] at h
    dsimp only [classifyApplied] at h
    repeat' split at h
    all_goals try contradiction
    exact absurd h (classifyClass_ne_enum _ _)
  | classType body =>
    rw [hk] at h
    exact absurd h (classifyClass_ne_enum _ _)
  | interfaceType body =>
    rw [hk] at h
    exact absurd h (classifyClass_ne_enum _ _)

/-- What has a codec of its own is in the graph. -/
theorem WrittenBy.mem_places {c : TypeId} (h : g.WrittenBy id c) : c ∈ g.places := by
  refine Decidable.byContradiction fun hmem => ?_
  -- A type that is not in the graph counts as a class of the library.
  have hk := kind_of_not_mem hmem
  rcases h with ⟨h, rfl⟩ | h
  · obtain ⟨variants, hv⟩ := classify_eq_enum h
    rw [hk] at hv
    cases hv
  · obtain ⟨body, hbody, hlib, _⟩ := classify_eq_userClass h
    rw [classBody?, hk] at hbody
    cases hbody
    cases hlib

/-- What writes a reachable type is itself reachable, and written by its own codec. -/
theorem exists_writtenBy_iff :
    (∃ t, g.Reach roots t ∧ g.WrittenBy t id) ↔ g.Reach roots id ∧ g.WrittenBy id id := by
  constructor
  · rintro ⟨t, ht, ⟨henum, rfl⟩ | hclass⟩
    · exact ⟨ht, Or.inl ⟨henum, rfl⟩⟩
    · exact ⟨.rawClass ht hclass, Or.inr (classify_userClass_self hclass)⟩
  · rintro ⟨hreach, hwritten⟩
    exact ⟨id, hreach, hwritten⟩

/-- What has a codec of its own is declared: it is not at a place that is kept free, and not made of
other types. -/
private theorem Consistent.declared_of_writtenBy (hg : g.Consistent) (h : g.WrittenBy id id) :
    id.isReserved = false ∧ (g.kind id).parts = [] := by
  -- Reserved places hold library classes, which are neither enums nor classes with codecs.
  rcases h with ⟨henum, _⟩ | hclass
  · obtain ⟨variants, hk⟩ := classify_eq_enum henum
    refine ⟨?_, by rw [hk]; rfl⟩
    rw [Bool.eq_false_iff]
    intro hres
    obtain ⟨body, hbody, _⟩ := hg.reserved id hres
    rw [classBody?, hk] at hbody
    cases hbody
  · obtain ⟨body, hbody, hlib, _⟩ := classify_eq_userClass hclass
    constructor
    · rw [Bool.eq_false_iff]
      intro hres
      obtain ⟨body', hbody', hlib'⟩ := hg.reserved id hres
      rw [hbody, Option.some.injEq] at hbody'
      rw [← hbody', hlib] at hlib'
      cases hlib'
    · rw [classBody?] at hbody
      -- A class that has a body has no parts.
      cases hk : g.kind id with
      | arrayType component =>
        rw [hk] at hbody
        cases hbody
      | parameterized raw arguments =>
        rw [hk] at hbody
        cases hbody
      | _ => rfl

/-- No two types with codecs of their own share a name. -/
theorem Consistent.eq_of_name_eq (hg : g.Consistent) {a b : TypeId} (ha : g.WrittenBy a a)
    (hb : g.WrittenBy b b) (h : g.name a = g.name b) : a = b :=
  have ⟨hra, hpa⟩ := hg.declared_of_writtenBy ha
  have ⟨hrb, hpb⟩ := hg.declared_of_writtenBy hb
  hg.name_inj a b ha.mem_places hb.mem_places hra hrb hpa hpb h

/-! ### What a type is made of -/

/-- Nothing stands inside a class or interface without type arguments. -/
theorem positions_eq_nil {body : ClassBody} (h : g.classBody? id = some body) :
    g.positions id = [] := by
  have harguments : g.typeArguments id = [] := by
    unfold typeArguments
    split
    case h_1 raw arguments hk => simp [classBody?, hk, TypeKind.classBody?] at h
    case h_2 => rfl
  unfold positions
  split
  · exact harguments
  · rw [classify_of_classBody? h, elements_classifyClass]

/-- The types that stand inside a type at any depth, and the type itself. -/
inductive Within (g : TypeGraph) : TypeId → TypeId → Prop where
  | self (id : TypeId) : Within g id id
  | position {id p q : TypeId} : p ∈ g.positions id → Within g p q → Within g id q

/-- What stands inside a reachable type is reachable. -/
private theorem Reach.position (h : g.Reach roots id) {p : TypeId} (hp : p ∈ g.positions id) :
    g.Reach roots p := by
  unfold positions at hp
  split at hp
  -- An application of a class has its arguments inside.
  case h_1 c hc =>
    unfold typeArguments at hp
    split at hp
    case h_1 raw arguments hk => exact .argument h hc hk hp
    case h_2 => cases hp
  -- Any other type has its elements inside.
  case h_2 hc =>
    cases hid : g.classify id with
    | sequence shape element =>
      rw [hid, Classification.elements, List.mem_singleton] at hp
      exact hp ▸ .element h hid
    | map key value keys =>
      rw [hid] at hp
      simp only [Classification.elements, List.mem_cons, List.not_mem_nil, or_false] at hp
      rcases hp with rfl | rfl
      · exact .key h hid
      · exact .value h hid
    | _ =>
      rw [hid] at hp
      cases hp

/-- What stands inside a reachable type is reachable. -/
theorem Reach.within (h : g.Reach roots id) {q : TypeId} (hq : g.Within id q) :
    g.Reach roots q := by
  induction hq with
  | self => exact h
  | position hp _ ih => exact ih (h.position hp)

/-- The types that the body of a class asks for. -/
def bodyTypes (g : TypeGraph) (id : TypeId) : List TypeId :=
  (if g.hasInheritedFields id then (g.superclass? id).toList else []) ++ g.subtypes id ++
    (g.serializableFields id).map (·.type)

/-- What the body of a reachable class is made of is reachable. -/
theorem Reach.bodyType (h : g.Reach roots id) (hid : g.classify id = .userClass id) {t : TypeId}
    (ht : t ∈ g.bodyTypes id) : g.Reach roots t := by
  unfold bodyTypes at ht
  rw [List.mem_append, List.mem_append] at ht
  -- The superclass if it adds fields, the subtypes, and the types of fields.
  rcases ht with (ht | ht) | ht
  · split at ht
    case isTrue hin => exact .superclass h hid hin (Option.mem_toList.1 ht)
    case isFalse => cases ht
  · exact .subtype h hid ht
  · obtain ⟨f, hf, rfl⟩ := List.mem_map.1 ht
    exact .field h hid hf

/-- Nothing is above or below an enum, and it has no fields. -/
theorem Consistent.bodyTypes_enum (hg : g.Consistent) (h : g.classify id = .enum) :
    g.bodyTypes id = [] := by
  obtain ⟨variants, hk⟩ := classify_eq_enum h
  have hbody : g.classBody? id = none := by
    rw [classBody?, hk]
    rfl
  have hsuper : g.superclass? id = none := by
    rw [superclass?, hbody]
    rfl
  have hfields : g.serializableFields id = [] := by
    rw [serializableFields, hbody]
  -- What is below a type has it as a parent, and parents have bodies.
  have hdirect : g.directSubtypes id = [] := by
    rw [directSubtypes, List.filter_eq_nil_iff]
    intro sub _ hsub
    have hsome := (hg.parents sub id (of_decide_eq_true hsub)).2
    rw [hbody] at hsome
    cases hsome
  have hsub : g.subtypes id = [] := by
    rw [subtypes, hdirect, reach, sortByName, List.mergeSort_nil]
  rw [bodyTypes, hsuper, hsub, hfields]
  split <;> rfl

/-! ### Checking support -/

/-- The types that reachability goes on to from a type. -/
def neighbours (g : TypeGraph) (id : TypeId) : List TypeId :=
  (match g.kind id with
    | .arrayType component => [component]
    | _ => []) ++
  g.positions id ++
  match g.classify id with
  | .userClass c => if c = id then g.bodyTypes id else [c]
  | _ => []

/-- What holds the roots and all neighbours of its types holds everything that is reachable. -/
private theorem Reach.mem_of_closed {ids : List TypeId} (hroots : ∀ root ∈ roots, root ∈ ids)
    (hclosed : ∀ id ∈ ids, ∀ n ∈ g.neighbours id, n ∈ ids) (h : g.Reach roots id) : id ∈ ids := by
  -- Neighbours are what stands inside a type and what its body is made of.
  have hposition : ∀ {id p : TypeId}, id ∈ ids → p ∈ g.positions id → p ∈ ids := by
    intro id p hid hp
    refine hclosed id hid p ?_
    unfold neighbours
    rw [List.mem_append, List.mem_append]
    exact Or.inl (Or.inr hp)
  have hbody : ∀ {id t : TypeId}, id ∈ ids → g.classify id = .userClass id →
      t ∈ g.bodyTypes id → t ∈ ids := by
    intro id t hid hc ht
    refine hclosed id hid t ?_
    unfold neighbours
    rw [List.mem_append]
    right
    simpa [hc] using ht
  -- By induction on how the type is reached: each case is a neighbour.
  induction h with
  | root hroot => exact hroots _ hroot
  | component _ hk ih =>
    refine hclosed _ ih _ ?_
    simp [neighbours, hk]
  | element _ hc ih => exact hposition ih (by simp [positions, hc, Classification.elements])
  | key _ hc ih => exact hposition ih (by simp [positions, hc, Classification.elements])
  | value _ hc ih => exact hposition ih (by simp [positions, hc, Classification.elements])
  | argument _ hc hk hmem ih =>
    exact hposition ih (by simpa [positions, hc, typeArguments, hk] using hmem)
  | @rawClass id c _ hc ih =>
    by_cases heq : c = id
    · exact heq ▸ ih
    · refine hclosed _ ih _ ?_
      simp [neighbours, hc, heq]
  | superclass _ hc hin habove ih => exact hbody ih hc (by simp [bodyTypes, hin, habove])
  | subtype _ hc hsub ih => exact hbody ih hc (by simp [bodyTypes, hsub])
  | field _ hc hf ih => exact hbody ih hc (List.mem_append_right _ (List.mem_map_of_mem hf))

/-- Whether a type is not written by a class without instances. -/
def hasInstances (g : TypeGraph) (id : TypeId) : Bool :=
  match g.classify id with
  | .userClass c => !g.lacksInstances c
  | _ => true

/-- Whether the keys of a type have instances, if it is a map with arbitrary keys. -/
def keysHaveInstances (g : TypeGraph) (id : TypeId) : Bool :=
  match g.classify id with
  | .map key _ .paired => g.hasInstances key
  | _ => true

/-- Whether some types hold the roots and all their neighbours, and each of them is supported. -/
def checkSupported (g : TypeGraph) (roots ids : List TypeId) : Bool :=
  (roots.all fun root =>
    ids.contains root && !(g.classify root).isBuiltIn && g.hasInstances root) &&
  ids.all fun id =>
    (g.neighbours id).all ids.contains && !(g.classify id).isError && g.keysHaveInstances id

/-- A class that is checked to have instances does not lack them. -/
private theorem hasInstances_eq_true (h : g.hasInstances id = true) {c : TypeId}
    (hc : g.classify id = .userClass c) : ¬(g.isAbstract c ∧ g.concreteSubtypes c = []) := by
  intro hlacks
  simp [hasInstances, hc, lacksInstances_iff.2 hlacks] at h

/-- Everything that is reachable is supported if that was checked for what holds it. -/
theorem supported_of_checkSupported {ids : List TypeId} (h : g.checkSupported roots ids = true) :
    g.Supported roots := by
  simp only [checkSupported, Bool.and_eq_true, List.all_eq_true, Bool.not_eq_true',
    List.contains_iff_mem] at h
  obtain ⟨hroots, hids⟩ := h
  -- What was checked is closed, so it holds everything that is reachable.
  have hmem : ∀ id, g.Reach roots id → id ∈ ids := fun id =>
    Reach.mem_of_closed (fun root hroot => (hroots root hroot).1.1)
      (fun id hid => (hids id hid).1.1)
  exact {
    not_builtIn := fun root hroot => (hroots root hroot).1.2
    root_instances := fun root hroot c hc => hasInstances_eq_true (hroots root hroot).2 hc
    not_error := fun id hid => (hids id (hmem id hid)).1.2
    keys := by
      rintro id hid ⟨key, value, c, hmap, hkey, hlacks⟩
      have hkeys := (hids id (hmem id hid)).2
      rw [keysHaveInstances, hmap] at hkeys
      exact hasInstances_eq_true hkeys hkey hlacks }

/-! ### Codec references -/

/-- The codec reference of a type goes by its classification. -/
theorem codecRef_eq (g : TypeGraph) (id : TypeId) :
    g.codecRef id =
      match g.classify id with
      | .primitive s | .boxed s => .ok (.scalar s)
      | .string => .ok .string
      | .date => .ok .date
      | .timestamp => .ok .timestamp
      | .localDate => .ok .localDate
      | .any => .ok .any
      | .enum => .ok (.generated (g.name id))
      | .userClass c => .ok (.generated (g.name c))
      | .sequence shape element => (g.codecRef element).map (.sequence shape)
      | .map _ value .text => (g.codecRef value).map .textKeyMap
      | .map key value (.parsed _) => do
        let key ← g.codecRef key
        let value ← g.codecRef value
        return .parsedKeyMap key value
      | .map key value .paired => do
        let key ← g.codecRef key
        let value ← g.codecRef value
        return .pairedMap key value
      | .missingTypeArguments | .unsupported _ => .error (.unplannable (g.name id)) := by
  rw [codecRef]
  split
  case h_10 shape element hc =>
    rw [hc]
    dsimp only
    cases g.codecRef element <;> rfl
  -- How keys are written says which of the three sorts of map it is.
  case h_11 key value keys hc =>
    cases keys with
    | text =>
      simp only [hc]
      cases g.codecRef value <;> rfl
    | parsed s => simp only [hc]
    | paired => simp only [hc]
  all_goals simp only [*]

/-- A type that is reachable and supported has a codec reference. -/
theorem exists_codecRef (hs : g.Supported roots) (h : g.Reach roots id) :
    ∃ c, g.codecRef id = .ok c := by
  -- The elements of a type stand at smaller places.
  induction hn : id.index using Nat.strongRecOn generalizing id with
  | ind n ih =>
    subst hn
    have helement : ∀ {e : TypeId}, e ∈ (g.classify id).elements → g.Reach roots e →
        ∃ c, g.codecRef e = .ok c := fun he hreach =>
      ih _ (index_lt_of_mem_parts (elements_classify _ he)) hreach rfl
    have hcodec := hs.not_error id h
    rw [codecRef_eq]
    -- Containers have the reference of their elements, and errors are excluded.
    cases hc : g.classify id with
    | sequence shape element =>
      obtain ⟨c, hok⟩ := helement (by simp [hc, Classification.elements]) (.element h hc)
      exact ⟨.sequence shape c, by simp only [hok, Except.map]⟩
    | map key value keys =>
      obtain ⟨k, hkey⟩ := helement (by simp [hc, Classification.elements]) (.key h hc)
      obtain ⟨v, hvalue⟩ := helement (by simp [hc, Classification.elements]) (.value h hc)
      cases keys with
      | text => exact ⟨.textKeyMap v, by simp only [hvalue, Except.map]⟩
      | parsed s => exact ⟨.parsedKeyMap k v, by simp only [hkey, hvalue]; rfl⟩
      | paired => exact ⟨.pairedMap k v, by simp only [hkey, hvalue]; rfl⟩
    | missingTypeArguments =>
      rw [hc] at hcodec
      cases hcodec
    | unsupported why =>
      rw [hc] at hcodec
      cases hcodec
    | _ => exact ⟨_, rfl⟩

end TypeGraph

end GraphCodec
