import GraphCodec.Proofs.Generation.Closure
import GraphCodec.Proofs.Types.Renaming

/-!
# Generation from renamed graphs

Generation looks at the names of types and at how they are connected, never at their places.  So a
graph that holds the same types at other places, with the fields and interfaces of its classes in
another order, yields the same unit or the same diagnostics (`TypeGraph.Renames.generate`).

The proof follows generation: the classification of a type, what it asks for, the walk and the
plans are renamed with the types.  Identities, frames and diagnostics hold names only, so they stay
as they are.
-/

namespace GraphCodec

/-! ### Renamed data -/

variable {σ : TypeId → TypeId}

/-- A classification with its types renamed. -/
def Classification.rename (σ : TypeId → TypeId) : Classification → Classification
  | sequence shape element => sequence shape (σ element)
  | map key value keys => map (σ key) (σ value) keys
  | userClass id => userClass (σ id)
  | c => c

/-- Whether a codec is always there does not depend on the places of types. -/
private theorem Classification.isBuiltIn_rename (c : Classification) :
    (c.rename σ).isBuiltIn = c.isBuiltIn := by
  cases c <;> rfl

/-- A step of the walk with its type renamed. -/
def WalkStep.rename (σ : TypeId → TypeId) : WalkStep → WalkStep
  | report d => report d
  | enter frames id => enter frames (σ id)
  | leave id => leave (σ id)

/-- A registry with its types renamed. -/
def Registry.rename (σ : TypeId → TypeId) (r : Registry) : Registry :=
  ⟨r.records.map fun c => { c with type := σ c.type }, r.order.map σ⟩

/-- The state of a walk with its types renamed. -/
def WalkState.rename (σ : TypeId → TypeId) (s : WalkState) : WalkState :=
  { s with registry := s.registry.rename σ }

namespace TypeGraph

/-- The innermost component of an array is that of its component. -/
private theorem leaf_eq (g : TypeGraph) (id : TypeId) :
    g.leaf id = match g.kind id with
      | .arrayType component => g.leaf component
      | _ => id := by
  rw [leaf]
  split <;> simp_all

/-- What a type asks for: what is wrong with its keys, what the types inside it ask for, and what it
asks for itself. -/
theorem typeSteps_eq (g : TypeGraph) (frames : List Frame) (id : TypeId) :
    g.typeSteps frames id = g.keySteps frames id ++
      (g.positions id).flatMap (fun p => g.typeSteps (frames ++ [.argument (g.name p)]) p) ++
        g.ownSteps frames id := by
  rw [typeSteps]
  congr 2
  rw [List.flatMap_subtype (g := fun p => g.typeSteps (frames ++ [.argument (g.name p)]) p)
    fun _ _ => rfl, List.unattach_attach]

namespace Renames

variable {g g' : TypeGraph} (h : Renames σ g g')

include h

/-! ### Subtypes -/

/-- A renamed type has the renamed subtypes, in the same order. -/
private theorem subtypes (hg : g.LoadedGraph) (id : TypeId) :
    g'.subtypes (σ id) = (g.subtypes id).map σ := by
  have hnames : ∀ a ∈ g.subtypes id, ∀ b ∈ g.subtypes id, g.name a = g.name b → a = b :=
    fun a ha b hb => hg.built.consistent.eq_of_name_eq (Or.inr (hg.classify_subtype ha))
      (Or.inr (hg.classify_subtype hb))
  unfold TypeGraph.subtypes sortByName at hnames ⊢
  simp only [List.mem_mergeSort] at hnames
  rw [List.map_mergeSort (s := fun a b => decide (g'.name a ≤ g'.name b))
    fun a _ b _ => by rw [h.name, h.name]]
  -- The search meets the types in another order, which sorting by name makes up for.
  refine (List.mergeSort_eq_of_perm ?_ ?_).symm
  · -- The same types are found, each of them once.
    refine (List.perm_ext_iff_of_nodup
      ((nodup_reach (g.nodup_places.erase id)).map h.bijective.injective)
      (nodup_reach (g'.nodup_places.erase (σ id)))).2 fun a => ?_
    obtain ⟨x, rfl⟩ := h.bijective.surjective a
    rw [List.mem_map_of_injective h.bijective.injective, mem_reach_map h.bijective
      (fun _ _ => h.mem_directSubtypes) (fun _ => h.mem_erase) fun _ => h.mem_directSubtypes]
  -- Sorting tells the subtypes apart, since they have different names.
  · intro a ha b hb hab
    obtain ⟨x, hx, rfl⟩ := List.mem_map.1 ha
    obtain ⟨y, hy, rfl⟩ := List.mem_map.1 hb
    rw [h.name, h.name] at hab
    rw [hnames x hx y hy hab]

/-- A renamed type has the renamed concrete subtypes. -/
private theorem concreteSubtypes (hg : g.LoadedGraph) (id : TypeId) :
    g'.concreteSubtypes (σ id) = (g.concreteSubtypes id).map σ := by
  rw [TypeGraph.concreteSubtypes, h.subtypes hg, List.filter_map, TypeGraph.concreteSubtypes]
  congr 2
  funext sub
  show (!g'.isAbstract (σ sub)) = _
  rw [h.isAbstract]

/-- A renamed type lacks instances if the type does. -/
private theorem lacksInstances (hg : g.LoadedGraph) (id : TypeId) :
    g'.lacksInstances (σ id) = g.lacksInstances id := by
  rw [TypeGraph.lacksInstances, h.isAbstract, h.concreteSubtypes hg, List.isEmpty_map,
    TypeGraph.lacksInstances]

/-! ### Classification -/

/-- A renamed type is the same scalar, if it is one. -/
private theorem scalar? (id : TypeId) : g'.scalar? (σ id) = g.scalar? id := by
  have hkind := h.kind id
  unfold TypeGraph.scalar?
  generalize g.kind id = kind at hkind ⊢
  generalize g'.kind (σ id) = kind' at hkind ⊢
  cases hkind <;> rfl

/-- A renamed type is an array if the type is. -/
private theorem isArray (id : TypeId) : g'.isArray (σ id) = g.isArray id := by
  have hkind := h.kind id
  unfold TypeGraph.isArray
  generalize g.kind id = kind at hkind ⊢
  generalize g'.kind (σ id) = kind' at hkind ⊢
  cases hkind <;> rfl

/-- The leaf of a renamed array is the renamed leaf. -/
private theorem leaf (id : TypeId) : g'.leaf (σ id) = σ (g.leaf id) := by
  induction hn : id.index using Nat.strongRecOn generalizing id with
  | ind n ih =>
    -- The component of an array stands at a smaller place.
    have hparts : ∀ p ∈ (g.kind id).parts, g'.leaf (σ p) = σ (g.leaf p) := fun p hp =>
      ih p.index (hn ▸ index_lt_of_mem_parts hp) p rfl
    have hkind := h.kind id
    rw [leaf_eq, leaf_eq g]
    generalize g.kind id = kind at hkind hparts ⊢
    generalize g'.kind (σ id) = kind' at hkind ⊢
    cases hkind with
    | arrayType component => exact hparts component List.mem_cons_self
    | _ => rfl

/-- Renamed keys are written in the same way. -/
private theorem mapKeys (key : TypeId) : g'.mapKeys (σ key) = g.mapKeys key := by
  unfold TypeGraph.mapKeys
  rw [h.scalar?]
  simp only [h.eq_iff .string rfl]

/-- A renamed type is a raw container if the type is. -/
private theorem isRawContainer (id : TypeId) : (σ id).isRawContainer = id.isRawContainer := by
  -- The raw containers are among the fixed types, which are not renamed.
  have hprelude : ∀ x : TypeId, x.isRawContainer → x.isPrelude := by
    intro x hx
    simp only [TypeId.isRawContainer, TypeId.isPrelude, Bool.and_eq_true, decide_eq_true_eq] at hx ⊢
    exact Nat.lt_of_le_of_lt hx.2 (by decide)
  rw [Bool.eq_iff_iff]
  constructor
  · intro hx
    rwa [(h.eq_iff _ (hprelude _ hx)).1 rfl]
  · intro hx
    rwa [h.fixed id (hprelude id hx)]

/-- A renamed class is classified alike. -/
private theorem classifyClass {body body' : ClassBody} (hbody : body.Renames σ body')
    (id : TypeId) :
    TypeGraph.classifyClass (σ id) body' = (TypeGraph.classifyClass id body).rename σ := by
  -- The tests compare with fixed types, which tell a type from its renaming.
  unfold TypeGraph.classifyClass
  simp only [h.isRawContainer, h.eq_iff .string rfl, h.eq_iff .date rfl, h.eq_iff .timestamp rfl,
    h.eq_iff .localDate rfl, h.eq_iff .object rfl, hbody.isLibrary]
  repeat' split
  all_goals rfl

/-- A renamed application of a class is classified alike. -/
private theorem classifyApplied (raw : TypeId) (arguments : List TypeId) :
    g'.classifyApplied (σ raw) (arguments.map σ) =
      (g.classifyApplied raw arguments).rename σ := by
  unfold TypeGraph.classifyApplied
  simp only [h.eq_iff .list rfl, h.eq_iff .arrayList rfl, h.eq_iff .set rfl, h.eq_iff .hashSet rfl,
    h.eq_iff .map rfl, h.eq_iff .hashMap rfl]
  -- The tests for containers look at the number of arguments; any other class has its own
  -- classification.
  split_ifs
  · rcases arguments with _ | ⟨a, _ | ⟨b, rest⟩⟩ <;> rfl
  · rcases arguments with _ | ⟨a, _ | ⟨b, rest⟩⟩ <;> rfl
  · rcases arguments with _ | ⟨a, _ | ⟨b, _ | ⟨c, rest⟩⟩⟩
    case cons.cons.nil =>
      show Classification.map (σ a) (σ b) (g'.mapKeys (σ a)) = _
      rw [h.mapKeys]
      rfl
    all_goals rfl
  · rcases h.classBody?_cases raw with ⟨hnone, hnone'⟩ | ⟨body, body', hbody, hbody', hren⟩
    · rw [hnone, hnone']
      rfl
    · rw [hbody, hbody']
      exact h.classifyClass hren raw

/-- Classification is renamed with the types. -/
theorem classify (id : TypeId) : g'.classify (σ id) = (g.classify id).rename σ := by
  have hkind := h.kind id
  unfold TypeGraph.classify
  generalize g.kind id = kind at hkind ⊢
  generalize g'.kind (σ id) = kind' at hkind ⊢
  cases hkind with
  | primitive p => cases p <;> rfl
  | boxed s => rfl
  | classType hbody => exact h.classifyClass hbody id
  | interfaceType hbody => exact h.classifyClass hbody id
  | enumType variants => rfl
  | arrayType component =>
    dsimp only [TypeGraph.classifyArray]
    rw [h.isArray, h.leaf, h.scalar?]
    split <;> rfl
  | parameterized raw arguments => exact h.classifyApplied raw arguments

/-- A renamed type has the renamed arguments. -/
private theorem typeArguments (id : TypeId) :
    g'.typeArguments (σ id) = (g.typeArguments id).map σ := by
  have hkind := h.kind id
  unfold TypeGraph.typeArguments
  generalize g.kind id = kind at hkind ⊢
  generalize g'.kind (σ id) = kind' at hkind ⊢
  cases hkind <;> rfl

/-- What stands inside a renamed type is renamed. -/
private theorem positions (id : TypeId) : g'.positions (σ id) = (g.positions id).map σ := by
  unfold TypeGraph.positions
  rw [h.classify]
  cases g.classify id with
  | userClass c => exact h.typeArguments id
  | _ => rfl

/-! ### What types ask for -/

/-- What is wrong with keys stays so for renamed ones. -/
private theorem keySteps (hg : g.LoadedGraph) (frames : List Frame) (id : TypeId) :
    g'.keySteps frames (σ id) = (g.keySteps frames id).map (WalkStep.rename σ) := by
  unfold TypeGraph.keySteps
  rw [h.classify]
  -- Only maps with paired keys ask for instances of the keys.
  cases g.classify id with
  | map key value keys =>
    cases keys with
    | paired =>
      dsimp only [Classification.rename]
      rw [h.classify, h.name]
      cases g.classify key with
      | userClass c =>
        dsimp only [Classification.rename]
        rw [h.lacksInstances hg]
        split <;> rfl
      | _ => rfl
    | _ => rfl
  | _ => rfl

/-- A renamed type asks for the same itself. -/
private theorem ownSteps (frames : List Frame) (id : TypeId) :
    g'.ownSteps frames (σ id) = (g.ownSteps frames id).map (WalkStep.rename σ) := by
  unfold TypeGraph.ownSteps
  rw [h.classify, h.name]
  cases g.classify id <;> rfl

/-- A renamed type asks for what the type does, with renamed targets. -/
theorem typeSteps (hg : g.LoadedGraph) (frames : List Frame) (id : TypeId) :
    g'.typeSteps frames (σ id) = (g.typeSteps frames id).map (WalkStep.rename σ) := by
  induction hn : id.index using Nat.strongRecOn generalizing frames id with
  | ind n ih =>
    -- What stands inside stands at smaller places.
    have hinner : ∀ p ∈ g.positions id, g'.typeSteps (frames ++ [.argument (g'.name (σ p))]) (σ p) =
        (g.typeSteps (frames ++ [.argument (g.name p)]) p).map (WalkStep.rename σ) := by
      intro p hp
      rw [h.name]
      exact ih p.index (hn ▸ index_lt_of_mem_positions hp) _ p rfl
    rw [typeSteps_eq, typeSteps_eq g, h.keySteps hg, h.ownSteps, h.positions, List.flatMap_map,
      List.map_append, List.map_append, List.map_flatMap]
    congr 2
    exact List.flatMap_congr hinner

/-- The superclass of a renamed type is asked for alike. -/
private theorem superclassSteps (hg : g.LoadedGraph) (frames : List Frame) (id : TypeId) :
    g'.superclassSteps frames (σ id) = (g.superclassSteps frames id).map (WalkStep.rename σ) := by
  unfold TypeGraph.superclassSteps
  rw [h.hasInheritedFields, h.superclass?]
  split
  · cases g.superclass? id with
    | none => rfl
    | some above =>
      simp only [Option.map_some, Option.toList_some, List.flatMap_cons, List.flatMap_nil,
        List.append_nil]
      exact h.typeSteps hg frames above
  · rfl

/-- The body of a renamed class asks for the same in the same order. -/
private theorem bodySteps (hg : g.LoadedGraph) (frames : List Frame) (id : TypeId) :
    g'.bodySteps frames (σ id) = (g.bodySteps frames id).map (WalkStep.rename σ) := by
  unfold TypeGraph.bodySteps
  dsimp only
  rw [h.name, h.superclassSteps hg, h.subtypes hg, h.serializableFields, List.flatMap_map,
    List.flatMap_map, List.map_append, List.map_append, List.map_flatMap, List.map_flatMap]
  -- Subtypes and fields ask for what their types do.
  congr 2
  · exact List.flatMap_congr fun sub _ => h.typeSteps hg _ sub
  · funext f
    exact h.typeSteps hg _ f.type

/-- A renamed root asks for the same. -/
private theorem rootSteps (hg : g.LoadedGraph) (root : TypeId) :
    g'.rootSteps (σ root) = (g.rootSteps root).map (WalkStep.rename σ) := by
  unfold TypeGraph.rootSteps
  dsimp only
  rw [h.classify, h.name, Classification.isBuiltIn_rename, h.typeSteps hg]
  split
  · rfl
  · cases g.classify root with
    | userClass id =>
      dsimp only [Classification.rename]
      rw [h.lacksInstances hg]
      split <;> rfl
    | _ => rfl

end Renames

end TypeGraph

/-! ### The walk -/

namespace Registry

variable (hσ : Function.Injective σ)

include hσ

/-- A renamed type is registered in the renamed registry if the type is in the registry. -/
theorem contains_rename (r : Registry) (id : TypeId) :
    (r.rename σ).contains (σ id) = r.contains id := by
  unfold contains record? rename
  rw [List.find?_map, Option.isSome_map]
  congr 2
  funext c
  exact decide_eq_decide.2 hσ.eq_iff

/-- A renamed type is registered alike. -/
private theorem register_rename (r : Registry) (id : TypeId) (typeName identity : String) :
    ((r.rename σ).register (σ id) typeName identity).2 =
      (r.register id typeName identity).2.rename σ := by
  unfold register
  rw [contains_rename hσ]
  split
  -- The type is registered already, or its record comes behind the others.
  · rfl
  · simp [rename]

omit hσ in
/-- A fresh identity goes by the identities that are there. -/
private theorem freshIdentity_rename (r : Registry) (typeName suffix : String) :
    (r.rename σ).freshIdentity typeName suffix = r.freshIdentity typeName suffix := by
  -- Identities are looked up in records, whose number does not change either.
  have hidentity : ∀ identity, (r.rename σ).hasIdentity identity = r.hasIdentity identity := by
    intro identity
    unfold hasIdentity rename
    rw [List.any_map]
    rfl
  have hnumbered : (r.rename σ).numberedIdentities typeName suffix =
      r.numberedIdentities typeName suffix := by
    unfold numberedIdentities rename
    rw [List.length_map]
  unfold freshIdentity
  simp only [hidentity, hnumbered]

omit hσ in
/-- Identities do not depend on the places of types. -/
private theorem identities_rename (r : Registry) : (r.rename σ).identities = r.identities := by
  unfold identities rename
  rw [List.map_map]
  rfl

end Registry

namespace WalkState

variable {g g' : TypeGraph} (h : TypeGraph.Renames σ g g')

include h

/-- Registering a renamed type in a walk renames what registering the type yields. -/
private theorem register_rename (s : WalkState) (suffix : String) (id : TypeId) :
    (s.rename σ).register g' suffix (σ id) = (s.register g suffix id).rename σ := by
  unfold register rename
  dsimp only
  rw [h.name, Registry.freshIdentity_rename, Registry.register_rename h.bijective.injective]

/-- Leaving a renamed type renames what leaving the type yields. -/
private theorem leave_rename (s : WalkState) (id : TypeId) :
    (s.rename σ).leave (σ id) = (s.leave id).rename σ := by
  have horder : (s.registry.rename σ).order.contains (σ id) = s.registry.order.contains id := by
    rw [Bool.eq_iff_iff, List.contains_iff_mem, List.contains_iff_mem]
    exact List.mem_map_of_injective h.bijective.injective
  unfold leave rename Registry.finish
  dsimp only
  rw [Registry.contains_rename h.bijective.injective, horder]
  -- The type has its place, or gets one, or is not registered.
  split_ifs
  · rfl
  · simp [Registry.rename]
  · rfl

end WalkState

/-- A walk through a renamed graph does the same with the renamed types. -/
private theorem walk_rename {g g' : TypeGraph} (h : TypeGraph.Renames σ g g') (hg : g.LoadedGraph)
    (suffix : String) (agenda : List WalkStep) (s : WalkState) :
    walk g' suffix (agenda.map (WalkStep.rename σ)) (s.rename σ) =
      (walk g suffix agenda s).rename σ := by
  induction agenda, s using walk.induct g suffix with
  -- At the end of the agenda both walks end.
  | case1 s =>
    rw [List.map_nil, walk, walk]
  -- A report holds names only.
  | case2 s d rest ih =>
    rw [List.map_cons, WalkStep.rename, walk, walk]
    exact ih
  | case3 s frames id rest hnew ih =>
    -- The type is new in both walks, and what its body asks for comes first in both.
    have hnew' := (Registry.contains_rename h.bijective.injective s.registry id).trans hnew.2
    rw [List.map_cons, WalkStep.rename, walk_enter_new ((h.mem_places id).2 hnew.1) hnew'
      (h.bodySteps hg frames id), walk_enter_new hnew.1 hnew.2 rfl, WalkState.register_rename h,
      ← ih, List.map_append, List.map_cons]
    rfl
  -- The type is registered in both walks or a place of neither graph.
  | case4 s frames id rest hold ih =>
    rw [List.map_cons, WalkStep.rename, walk, walk, if_neg hold, if_neg]
    · exact ih
    · rw [h.mem_places]
      show ¬(id ∈ g.places ∧ (s.registry.rename σ).contains (σ id) = false)
      rw [Registry.contains_rename h.bijective.injective]
      exact hold
  -- Leaving is renamed.
  | case5 s id rest ih =>
    rw [List.map_cons, WalkStep.rename, walk, walk, WalkState.leave_rename h]
    exact ih

/-! ### Plans -/

namespace TypeGraph

variable {g g' : TypeGraph}

namespace Renames

variable (h : Renames σ g g')

include h

/-- A renamed type has the same codec reference. -/
private theorem codecRef (id : TypeId) : g'.codecRef (σ id) = g.codecRef id := by
  induction hn : id.index using Nat.strongRecOn generalizing id with
  | ind n ih =>
    -- Elements stand at smaller places.
    have helement : ∀ e ∈ (g.classify id).elements, g'.codecRef (σ e) = g.codecRef e := fun e he =>
      ih e.index (hn ▸ index_lt_of_mem_parts (elements_classify e he)) e rfl
    rw [codecRef_eq, codecRef_eq g, h.classify, h.name]
    cases hid : g.classify id with
    | userClass c =>
      dsimp only [Classification.rename]
      rw [h.name]
    | sequence shape element =>
      dsimp only [Classification.rename]
      rw [helement element (by simp [hid, Classification.elements])]
    | map key value keys =>
      have hkey := helement key (by simp [hid, Classification.elements])
      have hvalue := helement value (by simp [hid, Classification.elements])
      cases keys <;> simp only [Classification.rename, hkey, hvalue]
    | _ => rfl

/-- A field of a renamed type is written alike. -/
private theorem fieldEncoding (type : TypeId) :
    g'.fieldEncoding (σ type) = g.fieldEncoding type := by
  unfold TypeGraph.fieldEncoding
  rw [h.classify, h.codecRef]
  cases g.classify type <;> rfl

/-- The name under which a field is written goes by the names of the fields of its class. -/
private theorem fieldPlan (dropped : Option String) (declared : List Field) (f : Field) :
    g'.fieldPlan dropped (declared.map (Field.rename σ)) (f.rename σ) =
      g.fieldPlan dropped declared f := by
  -- The names of the fields decide whether the short name is taken.
  have hname : wireName dropped (declared.map (Field.rename σ)) f.name =
      wireName dropped declared f.name := by
    unfold wireName
    simp only [List.any_map]
    rfl
  unfold TypeGraph.fieldPlan
  dsimp only [Field.rename]
  rw [h.fieldEncoding, ← hname]

/-- A renamed class has the same plan of an object. -/
private theorem objectPlan (hg : g.LoadedGraph) (dropped : Option String) (id : TypeId) :
    g'.objectPlan dropped (σ id) = g.objectPlan dropped id := by
  -- Names of types are kept when these are renamed.
  have hnames : ∀ ids : List TypeId, (ids.map σ).map g'.name = ids.map g.name := by
    intro ids
    rw [List.map_map]
    exact List.map_congr_left fun x _ => h.name x
  have hsuper : ((g.superclass? id).map σ).map g'.name = (g.superclass? id).map g.name := by
    rw [Option.map_map]
    exact congrArg (fun f => (g.superclass? id).map f) (funext h.name)
  unfold TypeGraph.objectPlan
  dsimp only
  rw [h.serializableFields, List.mapM_map, h.name, h.isAbstract, h.hasInheritedFields,
    h.superclass?, h.concreteSubtypes hg, hnames, hsuper]
  congr 2
  funext f
  exact h.fieldPlan dropped _ f

/-- A renamed type has the same plan. -/
theorem plan (hg : g.LoadedGraph) (dropped : Option String) (id : TypeId) :
    g'.plan dropped (σ id) = g.plan dropped id := by
  have hkind := h.kind id
  unfold TypeGraph.plan
  rw [h.name, h.objectPlan hg]
  generalize g.kind id = kind at hkind ⊢
  generalize g'.kind (σ id) = kind' at hkind ⊢
  cases hkind <;> rfl

end Renames

end TypeGraph

/-! ### Generation -/

namespace TypeGraph.Renames

variable {g g' : TypeGraph} (h : Renames σ g g')

include h

/-- A walk from renamed roots is renamed. -/
private theorem walk (hg : g.LoadedGraph) (c : GeneratorConfig) (roots : List TypeId) :
    c.walk g' (roots.map σ) = (c.walk g roots).rename σ := by
  -- The agenda at the start is what the roots ask for.
  have hagenda : (roots.map σ).flatMap g'.rootSteps =
      (roots.flatMap g.rootSteps).map (WalkStep.rename σ) := by
    rw [List.flatMap_map, List.map_flatMap]
    exact List.flatMap_congr fun root _ => h.rootSteps hg root
  unfold GeneratorConfig.walk walkRoots
  rw [hagenda, ← walk_rename h hg]
  rfl

/-- Generation from a renamed graph yields the same unit, or the same diagnostics. -/
theorem generate (hg : g.LoadedGraph) (hg' : g'.LoadedGraph) (c : GeneratorConfig)
    (roots : List TypeId) : c.generate g' (roots.map σ) = c.generate g roots := by
  have hinv := GeneratorConfig.walkInvariant hg.built.consistent c roots
  have hinv' := GeneratorConfig.walkInvariant hg'.built.consistent c (roots.map σ)
  have hwalk := h.walk hg c roots
  -- Every registered type is planned on its own, so the plans are those of the list of types.
  have hplans : (g'.planAll c.droppedStart (c.walk g' (roots.map σ)).registry).1 =
      (g.planAll c.droppedStart (c.walk g roots).registry).1 := by
    rw [planAll, planAll, planEach_eq_mapM g _ hinv.nodup fun id =>
      GeneratorConfig.queued_of_mem_order hg.built.consistent, planEach_eq_mapM g' _ hinv'.nodup
      fun id => GeneratorConfig.queued_of_mem_order hg'.built.consistent, hwalk]
    show ((c.walk g roots).registry.order.map σ).mapM _ = _
    rw [List.mapM_map]
    congr 1
    funext id
    exact h.plan hg c.droppedStart id
  -- Planning keeps the identities, and these are not renamed.
  have hidentities : (g'.planAll c.droppedStart (c.walk g' (roots.map σ)).registry).2.identities =
      (g.planAll c.droppedStart (c.walk g roots).registry).2.identities := by
    rw [planAll, planAll, identities_planEach, identities_planEach, hwalk]
    exact Registry.identities_rename _
  unfold GeneratorConfig.generate
  dsimp only
  rw [show (c.walk g' (roots.map σ)).queue = (c.walk g roots).queue by rw [hwalk]; rfl]
  -- Errors stop both, a failing plan stops both, and otherwise the units are the same.
  split
  · rfl
  · generalize g.planAll c.droppedStart _ = planned at hplans hidentities ⊢
    generalize g'.planAll c.droppedStart _ = planned' at hplans hidentities ⊢
    obtain ⟨result, r⟩ := planned
    obtain ⟨result', r'⟩ := planned'
    obtain rfl : result' = result := hplans
    cases result' with
    | error d => rfl
    | ok plans =>
      dsimp only at hidentities ⊢
      unfold GeneratorConfig.unit
      rw [hidentities]

end TypeGraph.Renames

end GraphCodec
