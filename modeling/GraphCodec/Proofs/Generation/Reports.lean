import GraphCodec.Proofs.Generation.Generate
import GraphCodec.Proofs.Generation.Renaming

/-!
# Reports

What the walk reports, and where.  A type has a tree of types inside it, and some of them are bad:
they have no codec, or are maps whose keys have no instances.  A bad type is reported where it
stands, and what stands inside a type without a codec is not looked at.

A class is entered once, on the first way that leads to it, and what it asks for is on the agenda
from then on.  So the problems that are reported and those that are still to be reported, taken
together, are at each field as many as there are bad types at the fields of its name if the class is
registered, and none if not (`ReportInvariant`).  When the walk ends all of them are reported
(`reports_of_load`).
-/

namespace GraphCodec

/-! ### Where a problem is reported -/

/-- The nearest step of a way that is a type or a field. -/
def holder? (frames : List Frame) : Option Frame :=
  frames.reverse.find? fun
    | .type _ | .field _ _ => true
    | _ => false

/-- The number of diagnostics that are reported at a field. -/
def reportsAt (ds : List Diagnostic) (owner name : String) : Nat :=
  ds.countP fun d => holder? d.context = some (.field owner name)

/-- Whether a way starts at a root, and comes to each field from the type that it belongs to. -/
structure Traced (g : TypeGraph) (roots : List TypeId) (frames : List Frame) : Prop where
  root : ∃ root ∈ roots, frames.head? = some (.root (g.name root))
  field : ∀ before owner name after, frames = before ++ .field owner name :: after →
    before.getLast? = some (.type owner)

section Frames

variable {frames : List Frame} {g : TypeGraph} {roots : List TypeId}

/-- The arguments on a way are held where the way is held without them. -/
private theorem holder?_argument (name : String) :
    holder? (frames ++ [.argument name]) = holder? frames := by
  rw [holder?, List.reverse_append]
  rfl

/-- A way to a type is held by that type. -/
private theorem holder?_type (name : String) :
    holder? (frames ++ [.type name]) = some (.type name) := by
  rw [holder?, List.reverse_append]
  rfl

/-- A way to a field is held by that field. -/
private theorem holder?_field (owner name : String) :
    holder? (frames ++ [.field owner name]) = some (.field owner name) := by
  rw [holder?, List.reverse_append]
  rfl

/-- A way that goes on by a step that is no field, or by a field from its owner. -/
theorem Traced.append (h : Traced g roots frames) {frame : Frame}
    (hframe : ∀ owner name, frame = .field owner name → frames.getLast? = some (.type owner)) :
    Traced g roots (frames ++ [frame]) where
  root := by
    obtain ⟨root, hroot, hhead⟩ := h.root
    refine ⟨root, hroot, ?_⟩
    rw [List.head?_append, hhead]
    rfl
  field := by
    intro before owner name after heq
    -- The field is the last step, or one of the steps before.
    rcases List.eq_nil_or_concat after with rfl | ⟨after, last, rfl⟩
    · obtain ⟨rfl, hlast⟩ := List.append_inj' heq rfl
      exact hframe owner name (List.cons.inj hlast).1
    · rw [List.concat_eq_append, ← List.cons_append, ← List.append_assoc] at heq
      exact h.field before owner name after (List.append_inj' heq rfl).1

/-- The way to a root is traced. -/
private theorem traced_root {root : TypeId} (h : root ∈ roots) :
    Traced g roots [.root (g.name root)] where
  root := ⟨root, h, rfl⟩
  field := by
    -- There is no field on it.
    intro before owner name after heq
    cases before with
    | nil => cases heq
    | cons frame before => simp at heq

end Frames

/-! ### Bad types -/

namespace TypeGraph

variable {g : TypeGraph} {id : TypeId} {frames : List Frame}

/-- The types that stand inside a type as it is written: the component of an array, and the
arguments of a list, set, map or class of the program. -/
def innerTypes (g : TypeGraph) (id : TypeId) : List TypeId :=
  match g.kind id with
  | .arrayType component => [component]
  | .parameterized raw arguments =>
    if raw.isRawContainer ∨ g.classify raw = .userClass raw then arguments else []
  | _ => []

/-- The types inside a type are parts of it. -/
private theorem mem_parts_of_mem_innerTypes {p : TypeId} (h : p ∈ g.innerTypes id) :
    p ∈ (g.kind id).parts := by
  unfold innerTypes at h
  split at h
  case h_1 component hk =>
    rw [hk]
    exact h
  case h_2 raw arguments hk =>
    rw [hk]
    split at h
    · exact List.mem_cons_of_mem _ h
    · cases h
  case h_3 => cases h

/-- The types of the tree of a type, itself first, without what stands inside types at which the
tree is cut. -/
def treeTypes (g : TypeGraph) (cut : TypeId → Bool) (id : TypeId) : List TypeId :=
  id :: if cut id then [] else (g.innerTypes id).attach.flatMap fun p => g.treeTypes cut p.1
termination_by id.index
decreasing_by exact index_lt_of_mem_parts (mem_parts_of_mem_innerTypes p.2)

/-- Whether a type has no codec. -/
def lacksCodec (g : TypeGraph) (id : TypeId) : Bool := (g.classify id).isError

/-- Whether a type is a map that is written with its keys in an array, and the keys are of a class
without instances. -/
def lacksKeys (g : TypeGraph) (id : TypeId) : Bool :=
  match g.classify id with
  | .map key _ .paired =>
    match g.classify key with
    | .userClass c => g.lacksInstances c
    | _ => false
  | _ => false

/-- Whether a type is reported. -/
def isBad (g : TypeGraph) (id : TypeId) : Bool := g.lacksCodec id || g.lacksKeys id

/-- The number of bad types in the tree of a type that is cut where there is no codec. -/
def badTypes (g : TypeGraph) (id : TypeId) : Nat := (g.treeTypes g.lacksCodec id).countP g.isBad

/-- The raw containers are lists, sets and maps, by their interfaces and by their classes. -/
private theorem isRawContainer_iff : id.isRawContainer ↔ (id = .list ∨ id = .arrayList) ∨
    (id = .set ∨ id = .hashSet) ∨ id = .map ∨ id = .hashMap := by
  obtain ⟨i⟩ := id
  rw [TypeId.isRawContainer, Bool.and_eq_true, decide_eq_true_eq, decide_eq_true_eq]
  simp only [TypeId.list, TypeId.arrayList, TypeId.set, TypeId.hashSet, TypeId.map, TypeId.hashMap,
    TypeId.mk.injEq]
  omega

/-- A class or interface has no codec, or is a class of the program, or has a codec that is always
there. -/
private theorem classifyClass_cases (id : TypeId) (body : ClassBody) :
    (classifyClass id body).isError ∨ classifyClass id body = .userClass id ∨
      (classifyClass id body).isBuiltIn := by
  unfold classifyClass
  repeat' split
  all_goals simp [Classification.isError, Classification.isBuiltIn]

/-- A container has no codec if it is applied to another number of type arguments than it has
parameters; otherwise they stand inside it. -/
private theorem classifyApplied_of_isRawContainer {raw : TypeId} {arguments : List TypeId}
    (h : raw.isRawContainer) : (g.classifyApplied raw arguments).isError ∨
      (g.classifyApplied raw arguments).elements = arguments ∧
        ∀ c, g.classifyApplied raw arguments ≠ .userClass c := by
  rw [isRawContainer_iff] at h
  -- A list, a set or a map, and each has a codec with the right number of arguments only.
  unfold classifyApplied
  split
  case isTrue => split <;> simp [Classification.isError, Classification.elements]
  case isFalse hlist =>
    split
    case isTrue => split <;> simp [Classification.isError, Classification.elements]
    case isFalse hset =>
      rw [if_pos ((h.resolve_left hlist).resolve_left hset)]
      split <;> simp [Classification.isError, Classification.elements]

/-- What is no container is classified as the class that is applied to type arguments. -/
private theorem classifyApplied_of_not_isRawContainer {raw : TypeId} {arguments : List TypeId}
    (h : ¬raw.isRawContainer) : (g.classifyApplied raw arguments).isError ∨
      g.classify raw = .userClass raw ∧ g.classifyApplied raw arguments = .userClass raw ∨
      g.classify raw ≠ .userClass raw ∧ (g.classifyApplied raw arguments).isBuiltIn := by
  rw [isRawContainer_iff] at h
  obtain ⟨hlist, h⟩ := not_or.1 h
  obtain ⟨hset, hmap⟩ := not_or.1 h
  unfold classifyApplied
  rw [if_neg hlist, if_neg hset, if_neg hmap]
  -- Without a body there is nothing to classify.
  cases hbody : g.classBody? raw with
  | none => exact Or.inl rfl
  | some body =>
    rw [classify_of_classBody? hbody]
    -- The class has no codec, a codec of its own, or one that is always there.
    rcases classifyClass_cases raw body with herror | hclass | hbuiltIn
    · exact Or.inl herror
    · exact Or.inr (Or.inl ⟨hclass, hclass⟩)
    · refine Or.inr (Or.inr ⟨fun hclass => ?_, hbuiltIn⟩)
      rw [hclass] at hbuiltIn
      cases hbuiltIn

/-- The walk does not go on from a type without a codec. -/
private theorem positions_of_lacksCodec (h : g.lacksCodec id) : g.positions id = [] := by
  unfold lacksCodec at h
  unfold positions
  -- Only two classifications are errors, and neither has elements.
  cases hc : g.classify id with
  | missingTypeArguments => rfl
  | unsupported why => rfl
  | _ =>
    rw [hc] at h
    cases h

/-- The walk goes on from an array to its component. -/
private theorem positions_of_arrayType {component : TypeId}
    (hk : g.kind id = .arrayType component) (h : ¬(g.classify id).isError) :
    g.positions id = g.innerTypes id := by
  have hid : g.classify id = g.classifyArray component := by rw [classify, hk]
  rw [hid, classifyArray] at h
  rw [innerTypes, hk, positions, hid, classifyArray]
  split at h
  case isTrue => exact absurd rfl h
  case isFalse hnested =>
    rw [if_neg hnested]
    rfl

/-- Nothing is inside a type that is classified as one of the runtime library. -/
private theorem elements_of_isBuiltIn {c : Classification} (h : c.isBuiltIn) :
    (∀ raw, c ≠ .userClass raw) ∧ c.elements = [] := by
  cases c with
  | userClass raw => cases h
  | sequence shape element => cases h
  | map key value keys => cases h
  | _ => exact ⟨fun _ => Classification.noConfusion, rfl⟩

/-- The walk goes on from an application to its arguments if they stand inside it. -/
private theorem positions_of_parameterized {raw : TypeId} {arguments : List TypeId}
    (hk : g.kind id = .parameterized raw arguments) (h : ¬(g.classify id).isError) :
    g.positions id = g.innerTypes id := by
  have hid : g.classify id = g.classifyApplied raw arguments := by rw [classify, hk]
  have harguments : g.typeArguments id = arguments := by rw [typeArguments, hk]
  have hpositions : (∀ c, g.classifyApplied raw arguments ≠ .userClass c) →
      g.positions id = (g.classifyApplied raw arguments).elements := by
    intro hclass
    rw [positions, hid]
    split
    case h_1 c hc => exact absurd hc (hclass c)
    case h_2 => rfl
  rw [hid] at h
  rw [innerTypes, hk]
  dsimp only
  -- Containers have elements, user classes have arguments, built-in types have neither.
  by_cases hraw : raw.isRawContainer
  · obtain ⟨helements, hclass⟩ := (classifyApplied_of_isRawContainer hraw).resolve_left h
    rw [if_pos (Or.inl hraw), hpositions hclass, helements]
  · rcases (classifyApplied_of_not_isRawContainer hraw).resolve_left h with
      ⟨hclass, happlied⟩ | ⟨hclass, hbuiltIn⟩
    · rw [if_pos (Or.inr hclass), positions, hid, happlied]
      exact harguments
    · obtain ⟨hnotClass, helements⟩ := elements_of_isBuiltIn hbuiltIn
      rw [if_neg (by simp [hraw, hclass]), hpositions hnotClass, helements]

/-- The types that the walk goes on to are those inside a type, if it has a codec. -/
private theorem positions_eq (g : TypeGraph) (id : TypeId) :
    g.positions id = if g.lacksCodec id then [] else g.innerTypes id := by
  split
  case isTrue h => exact positions_of_lacksCodec h
  case isFalse h =>
    cases hk : g.kind id with
    | arrayType component => exact positions_of_arrayType hk h
    | parameterized raw arguments => exact positions_of_parameterized hk h
    -- Any other type has no parts, so nothing stands inside it.
    | _ =>
      have hparts : (g.kind id).parts = [] := by rw [hk]; rfl
      have hinner : g.innerTypes id = [] := by rw [innerTypes, hk]
      rw [hinner, List.eq_nil_iff_forall_not_mem]
      intro p hp
      have hmem := mem_parts_of_mem_positions hp
      rw [hparts] at hmem
      cases hmem

/-- The tree of a type is the type and the trees of the types inside it. -/
private theorem treeTypes_eq (g : TypeGraph) (cut : TypeId → Bool) (id : TypeId) :
    g.treeTypes cut id =
      id :: if cut id then [] else (g.innerTypes id).flatMap (g.treeTypes cut) := by
  rw [treeTypes]
  congr 2
  rw [List.flatMap_subtype fun _ _ => rfl, List.unattach_attach]

/-- The bad types of a tree are the type itself, if it is bad, and those that the walk goes on
to. -/
private theorem badTypes_eq (g : TypeGraph) (id : TypeId) : g.badTypes id =
    (if g.isBad id then 1 else 0) + ((g.positions id).map fun p => g.badTypes p).sum := by
  rw [badTypes, treeTypes_eq, List.countP_cons, Nat.add_comm, positions_eq]
  congr 1
  split
  case isTrue => rfl
  case isFalse =>
    rw [List.countP_flatMap]
    rfl

end TypeGraph

/-! ### What the steps report -/

/-- The problems that steps report. -/
def reports (steps : List WalkStep) : List Diagnostic :=
  steps.filterMap fun
    | .report d => some d
    | _ => none

theorem reports_append (steps rest : List WalkStep) :
    reports (steps ++ rest) = reports steps ++ reports rest := List.filterMap_append

theorem reports_flatMap {α : Type} (l : List α) (steps : α → List WalkStep) :
    reports (l.flatMap steps) = l.flatMap fun a => reports (steps a) := List.filterMap_flatMap

/-- Reports at a field are counted in both parts. -/
theorem reportsAt_append (ds ds' : List Diagnostic) (owner name : String) :
    reportsAt (ds ++ ds') owner name = reportsAt ds owner name + reportsAt ds' owner name :=
  List.countP_append

/-- Reports at a field are counted part by part. -/
theorem reportsAt_flatMap {α : Type} (l : List α) (ds : α → List Diagnostic)
    (owner name : String) :
    reportsAt (l.flatMap ds) owner name = (l.map fun a => reportsAt (ds a) owner name).sum :=
  List.countP_flatMap

namespace TypeGraph

variable {g : TypeGraph} {id : TypeId} {frames : List Frame}

/-- What is wrong with the keys of a map is reported where the map stands. -/
private theorem reports_keySteps (frames : List Frame) (id : TypeId) :
    (reports (g.keySteps frames id)).map (·.context) = if g.lacksKeys id then [frames] else [] := by
  cases hc : g.classify id with
  -- Only a map whose keys are objects of a class can lack keys.
  | map key value keys =>
    cases keys with
    | paired =>
      cases hkey : g.classify key with
      | userClass c =>
        simp only [keySteps, lacksKeys, hc, hkey]
        split <;> rfl
      | _ => simp [keySteps, lacksKeys, hc, hkey, reports]
    | _ => simp [keySteps, lacksKeys, hc, reports]
  | _ => simp [keySteps, lacksKeys, hc, reports]

/-- A type without a codec is reported where it stands. -/
private theorem reports_ownSteps (frames : List Frame) (id : TypeId) :
    (reports (g.ownSteps frames id)).map (·.context) =
      if g.lacksCodec id then [frames] else [] := by
  unfold ownSteps lacksCodec
  cases g.classify id <;> rfl

/-- A type without a codec is no map. -/
private theorem lacksKeys_eq_false (h : g.lacksCodec id) : g.lacksKeys id = false := by
  unfold lacksCodec at h
  unfold lacksKeys
  split
  case h_1 hmap =>
    rw [hmap] at h
    cases h
  case h_2 => rfl

/-- What is reported at one way at most, if something holds, is counted where the way ends. -/
private theorem reportsAt_eq_of_contexts {ds : List Diagnostic} {frames : List Frame} {p : Bool}
    (h : ds.map (·.context) = if p then [frames] else []) (owner name : String) :
    reportsAt ds owner name =
      if holder? frames = some (.field owner name) then (if p then 1 else 0) else 0 := by
  -- What is held depends on the way only.
  have hcount : reportsAt ds owner name =
      (ds.map (·.context)).countP fun frames => holder? frames = some (.field owner name) := by
    rw [List.countP_map]
    rfl
  rw [hcount, h]
  cases p with
  | true => rw [if_pos rfl, if_pos rfl, List.countP_singleton]; simp
  | false => rw [if_neg Bool.false_ne_true, if_neg Bool.false_ne_true, ite_self]; rfl

/-- A type has as many problems reported as there are bad types in its tree, all of them at the
field that it was reached from. -/
theorem reportsAt_typeSteps (frames : List Frame) (id : TypeId) (owner name : String) :
    reportsAt (reports (g.typeSteps frames id)) owner name =
      if holder? frames = some (.field owner name) then g.badTypes id else 0 := by
  -- By induction on the place, which gets smaller on the way into a type.
  induction hn : id.index using Nat.strongRecOn generalizing frames id with
  | ind n ih =>
    have hinner : ∀ p ∈ g.positions id,
        reportsAt (reports (g.typeSteps (frames ++ [.argument (g.name p)]) p)) owner name =
          if holder? frames = some (.field owner name) then g.badTypes p else 0 := by
      intro p hp
      rw [ih p.index (hn ▸ index_lt_of_mem_positions hp) _ p rfl, holder?_argument]
    -- Keys, inner types and the type itself report one after another.
    rw [typeSteps_eq, reports_append, reports_append, reports_flatMap, reportsAt_append,
      reportsAt_append, reportsAt_flatMap, List.map_congr_left hinner,
      reportsAt_eq_of_contexts (reports_keySteps frames id),
      reportsAt_eq_of_contexts (reports_ownSteps frames id), badTypes_eq, isBad]
    split
    case isTrue =>
      -- A type without a codec reports itself, and any other may lack keys.
      cases hcodec : g.lacksCodec id with
      | true =>
        rw [lacksKeys_eq_false hcodec]
        simp only [Bool.true_or, if_true, Bool.false_eq_true, if_false]
        omega
      | false =>
        simp only [Bool.false_or, Bool.false_eq_true, if_false]
        omega
    -- Where another field holds the way, nothing is counted.
    case isFalse => simp

/-- The number of bad types at the serializable fields of a class that have a name. -/
def badFields (g : TypeGraph) (id : TypeId) (name : String) : Nat :=
  (((g.serializableFields id).filter (·.name = name)).map fun f => g.badTypes f.type).sum

/-- The body of a class has as many problems reported at a field as there are bad types at the
fields of that name, and none at the fields of other classes. -/
private theorem reportsAt_bodySteps (frames : List Frame) (id : TypeId) (owner name : String) :
    reportsAt (reports (g.bodySteps frames id)) owner name =
      if g.name id = owner then g.badFields id name else 0 := by
  -- What is wrong with the superclass is held by the class, not by a field.
  have habove : reportsAt (reports (g.superclassSteps (frames ++ [.type (g.name id)]) id)) owner
      name = 0 := by
    unfold superclassSteps
    split
    case isTrue =>
      rw [reports_flatMap, reportsAt_flatMap]
      simp [reportsAt_typeSteps, holder?_type]
    case isFalse => rfl
  have hfields : ∀ fields : List Field, (fields.map fun f =>
      reportsAt (reports (g.typeSteps (frames ++ [.type (g.name id)] ++ [.field (g.name id) f.name])
        f.type)) owner name).sum = if g.name id = owner then
          ((fields.filter (·.name = name)).map fun f => g.badTypes f.type).sum else 0 := by
    intro fields
    induction fields with
    | nil => simp
    | cons f fields ih =>
      -- Each field of the name adds the bad types of its tree.
      rw [List.map_cons, List.sum_cons, ih, reportsAt_typeSteps, holder?_field, List.filter_cons]
      by_cases howner : g.name id = owner <;> by_cases hname : f.name = name <;>
        simp [howner, hname]
  unfold bodySteps
  dsimp only
  rw [reports_append, reports_append, reports_flatMap, reports_flatMap, reportsAt_append,
    reportsAt_append, reportsAt_flatMap, reportsAt_flatMap, habove, hfields, badFields]
  -- The subtypes are held by the class as well.
  simp [reportsAt_typeSteps, holder?_type]

end TypeGraph

/-! ### Ways -/

/-- Whether the ways of a step are traced. -/
def WalkStep.Traced (g : TypeGraph) (roots : List TypeId) : WalkStep → Prop
  | .report d => GraphCodec.Traced g roots d.context
  | .enter frames _ => GraphCodec.Traced g roots frames
  | .leave _ => True

section Ways

variable {g : TypeGraph} {roots : List TypeId} {frames : List Frame} {id : TypeId}

/-- What is wrong with keys is reported on the way to the type. -/
private theorem traced_of_mem_keySteps (h : Traced g roots frames) :
    ∀ step ∈ g.keySteps frames id, step.Traced g roots := by
  intro step hstep
  unfold TypeGraph.keySteps at hstep
  -- Each step, if there is one, has the way of the type.
  repeat' split at hstep
  all_goals first
    | rw [List.mem_singleton.1 hstep]; exact h
    | cases hstep

/-- What a type asks for itself is on the way to the type. -/
private theorem traced_of_mem_ownSteps (h : Traced g roots frames) :
    ∀ step ∈ g.ownSteps frames id, step.Traced g roots := by
  intro step hstep
  unfold TypeGraph.ownSteps at hstep
  split at hstep
  all_goals first
    | rw [List.mem_singleton.1 hstep]; exact h
    | cases hstep

/-- The ways of what a type asks for go on from the way to the type. -/
theorem traced_of_mem_typeSteps (h : Traced g roots frames) :
    ∀ step ∈ g.typeSteps frames id, step.Traced g roots := by
  induction hn : id.index using Nat.strongRecOn generalizing frames id with
  | ind n ih =>
    intro step hstep
    rw [TypeGraph.typeSteps_eq, List.mem_append, List.mem_append, List.mem_flatMap] at hstep
    -- The keys, the types inside, and the type itself.
    rcases hstep with (hstep | ⟨p, hp, hstep⟩) | hstep
    · exact traced_of_mem_keySteps h step hstep
    · have hinner : Traced g roots (frames ++ [.argument (g.name p)]) := h.append nofun
      exact ih p.index (hn ▸ TypeGraph.index_lt_of_mem_positions hp) hinner rfl step hstep
    · exact traced_of_mem_ownSteps h step hstep

/-- In the body of a class each field comes right after the class. -/
private theorem traced_of_mem_bodySteps (h : Traced g roots frames) :
    ∀ step ∈ g.bodySteps frames id, step.Traced g roots := by
  have htype : Traced g roots (frames ++ [.type (g.name id)]) := h.append nofun
  intro step hstep
  unfold TypeGraph.bodySteps TypeGraph.superclassSteps at hstep
  dsimp only at hstep
  rw [List.mem_append, List.mem_append, List.mem_flatMap, List.mem_flatMap] at hstep
  -- The superclass, the subtypes and the fields.
  rcases hstep with (hstep | ⟨sub, -, hstep⟩) | ⟨f, -, hstep⟩
  · split at hstep
    case isTrue =>
      obtain ⟨above, -, hstep⟩ := List.mem_flatMap.1 hstep
      exact traced_of_mem_typeSteps htype step hstep
    case isFalse => cases hstep
  · exact traced_of_mem_typeSteps htype step hstep
  · refine traced_of_mem_typeSteps (htype.append fun owner name heq => ?_) step hstep
    rw [List.getLast?_concat, (Frame.field.inj heq).1]

/-- What a root asks for is on the way from the root. -/
private theorem traced_of_mem_rootSteps {root : TypeId} (h : root ∈ roots) :
    ∀ step ∈ g.rootSteps root, step.Traced g roots := by
  have hroot : Traced g roots [.root (g.name root)] := traced_root h
  intro step hstep
  unfold TypeGraph.rootSteps at hstep
  dsimp only at hstep
  repeat' split at hstep
  all_goals first
    | exact traced_of_mem_typeSteps hroot step hstep
    | rw [List.mem_singleton.1 hstep]; exact hroot

/-- Adding a diagnostic to a queue adds no other one. -/
private theorem DiagnosticQueue.mem_diagnostics_add {q : DiagnosticQueue} {d e : Diagnostic}
    (h : d ∈ (q.add e).2.diagnostics) : d ∈ q.diagnostics ∨ d = e := by
  unfold add at h
  split at h
  -- The diagnostic is added unless it is beyond the limit or repeated.
  case isTrue => exact Or.inl h
  case isFalse =>
    split at h
    case isTrue => exact Or.inl h
    case isFalse => exact (List.mem_append.1 h).imp_right List.mem_singleton.1

/-- Every problem that a walk from roots reports has a traced way. -/
private theorem traced_walkRoots (g : TypeGraph) (suffix : String) (roots : List TypeId)
    (config : QueueConfig) :
    ∀ d ∈ (walkRoots g suffix roots ⟨.empty, .empty config⟩).queue.diagnostics,
      Traced g roots d.context := by
  -- The ways on the agenda and those in the queue are traced at every step.
  refine (walk_keeps (P := fun agenda s => (∀ step ∈ agenda, step.Traced g roots) ∧
    ∀ d ∈ s.queue.diagnostics, Traced g roots d.context) ?_ ?_ ?_ ?_
      ⟨?_, fun d (hd : d ∈ []) => nomatch hd⟩).2
  -- A report moves from the agenda into the queue.
  · intro d rest s ⟨hagenda, hqueue⟩
    refine ⟨fun step hstep => hagenda step (List.mem_cons_of_mem _ hstep), fun e he => ?_⟩
    rcases DiagnosticQueue.mem_diagnostics_add he with he | rfl
    · exact hqueue e he
    · exact hagenda _ List.mem_cons_self
  -- A body is asked for on the way to its class.
  · intro frames id rest s _ ⟨hagenda, hqueue⟩
    refine ⟨fun step hstep => ?_, hqueue⟩
    rcases List.mem_append.1 hstep with hstep | hstep
    · exact traced_of_mem_bodySteps (hagenda _ List.mem_cons_self) step hstep
    · rcases List.mem_cons.1 hstep with rfl | hstep
      · trivial
      · exact hagenda step (List.mem_cons_of_mem _ hstep)
  -- Nothing is put on the agenda or into the queue.
  · exact fun _ ⟨hagenda, hqueue⟩ =>
      ⟨fun step hstep => hagenda step (List.mem_cons_of_mem _ hstep), hqueue⟩
  · intro id rest s ⟨hagenda, hqueue⟩
    rw [WalkState.queue_leave]
    exact ⟨fun step hstep => hagenda step (List.mem_cons_of_mem _ hstep), hqueue⟩
  -- At the start there are only the roots.
  · intro step hstep
    obtain ⟨root, hroot, hstep⟩ := List.mem_flatMap.1 hstep
    exact traced_of_mem_rootSteps hroot step hstep

end Ways

/-! ### How often a problem is reported -/

/-- What holds between the agenda and the state of a walk with a queue that keeps everything, for
the fields of one name of a class: the problems that are reported there and those that are on the
agenda are the bad types of these fields if the class is registered, and none if not. -/
structure ReportInvariant (g : TypeGraph) (c : TypeId) (name : String) (agenda : List WalkStep)
    (s : WalkState) : Prop where
  config : s.queue.config = ⟨0, false⟩
  count : reportsAt (s.queue.diagnostics ++ reports agenda) (g.name c) name =
    if s.registry.contains c then g.badFields c name else 0

/-- A queue without limit that keeps what is repeated keeps everything. -/
private theorem DiagnosticQueue.diagnostics_add {q : DiagnosticQueue} (h : q.config = ⟨0, false⟩)
    (d : Diagnostic) :
    (q.add d).2.diagnostics = q.diagnostics ++ [d] ∧ (q.add d).2.config = ⟨0, false⟩ := by
  -- Neither the limit nor repetition gets in the way.
  have hlimit : q.limitReached = false := by simp [limitReached, h]
  have hrepeats : q.repeats d = false := by simp [repeats, h]
  rw [add, hlimit, hrepeats]
  simp [h]

namespace ReportInvariant

variable {g : TypeGraph} {roots : List TypeId} {c : TypeId} {name : String}
  {rest : List WalkStep} {s : WalkState}

/-- A report that is made moves from the agenda into the queue. -/
private theorem report {d : Diagnostic} (h : ReportInvariant g c name (.report d :: rest) s) :
    ReportInvariant g c name rest (s.report d) := by
  obtain ⟨hadd, hconfig⟩ := DiagnosticQueue.diagnostics_add h.config d
  refine ⟨hconfig, ?_⟩
  show reportsAt ((s.queue.add d).2.diagnostics ++ reports rest) _ _ = _
  rw [hadd, List.append_assoc]
  exact h.count

/-- Entering what is entered already reports nothing. -/
private theorem enter_old {frames : List Frame} {id : TypeId}
    (h : ReportInvariant g c name (.enter frames id :: rest) s) :
    ReportInvariant g c name rest s :=
  ⟨h.config, h.count⟩

/-- Leaving a type reports nothing. -/
private theorem leave {id : TypeId} (h : ReportInvariant g c name (.leave id :: rest) s) :
    ReportInvariant g c name rest (s.leave id) := by
  constructor
  · rw [WalkState.queue_leave]
    exact h.config
  · rw [WalkState.queue_leave, WalkState.contains_leave]
    exact h.count

/-- Entering the class puts the problems of its fields on the agenda, and entering another one puts
none at them there, because it has another name. -/
private theorem enter_new (hg : g.Consistent) {suffix : String} {frames : List Frame} {id : TypeId}
    (hid : g.WrittenBy id id) (hc : g.WrittenBy c c) (hnew : s.registry.contains id = false)
    (h : ReportInvariant g c name (.enter frames id :: rest) s) :
    ReportInvariant g c name (g.bodySteps frames id ++ .leave id :: rest)
      (s.register g suffix id) := by
  refine ⟨h.config, ?_⟩
  have hcount : reportsAt (s.queue.diagnostics ++ reports rest) (g.name c) name =
      if s.registry.contains c then g.badFields c name else 0 := h.count
  have hname : g.name id = g.name c ↔ c = id :=
    ⟨fun heq => (hg.eq_of_name_eq hid hc heq).symm, fun heq => by rw [heq]⟩
  show reportsAt (s.queue.diagnostics ++ reports (_ ++ .leave id :: rest)) _ _ = _
  rw [reportsAt_append] at hcount
  rw [reports_append, reportsAt_append, reportsAt_append, TypeGraph.reportsAt_bodySteps,
    WalkState.contains_register]
  show _ + (_ + reportsAt (reports rest) _ _) = _
  -- The class itself is entered, and its fields are counted from now on.
  by_cases heq : c = id
  · rw [heq, hnew, if_neg Bool.false_ne_true] at hcount
    rw [heq, if_pos rfl, decide_eq_true rfl, Bool.true_or, if_pos rfl]
    omega
  -- Another class is entered, which has another name.
  · rw [if_neg fun h => heq (hname.1 h), decide_eq_false heq, Bool.false_or, ← hcount]
    omega

/-- The invariant holds before the first step, because what a root asks for is at no field. -/
private theorem start_of_roots (g : TypeGraph) (roots : List TypeId) (c : TypeId) (name : String) :
    ReportInvariant g c name (roots.flatMap g.rootSteps) ⟨.empty, .empty ⟨0, false⟩⟩ := by
  refine ⟨rfl, ?_⟩
  -- A root is held by no field.
  have hroot : ∀ root, reportsAt (reports (g.rootSteps root)) (g.name c) name = 0 := by
    intro root
    unfold TypeGraph.rootSteps
    dsimp only
    repeat' split
    all_goals first
      | rfl
      | rw [TypeGraph.reportsAt_typeSteps]; rfl
  show reportsAt (reports (roots.flatMap g.rootSteps)) (g.name c) name = 0
  rw [reports_flatMap, reportsAt_flatMap]
  simp [hroot]

/-- The invariant carries over to the end of a walk. -/
private theorem walk (hg : g.Consistent) (hc : g.WrittenBy c c) {suffix : String}
    {agenda : List WalkStep} (hwalk : WalkInvariant g roots agenda s)
    (h : ReportInvariant g c name agenda s) :
    ReportInvariant g c name [] (GraphCodec.walk g suffix agenda s) := by
  -- Only what is written by its own codec is entered, by the invariant of the walk.
  refine (walk_keeps (P := fun agenda s =>
    WalkInvariant g roots agenda s ∧ ReportInvariant g c name agenda s)
    ?_ ?_ ?_ ?_ ⟨hwalk, h⟩).2
  · exact fun h => ⟨h.1.report, h.2.report⟩
  · intro frames id rest s hid h
    have hself := (TypeGraph.exists_writtenBy_iff.1 (h.1.agenda _ List.mem_cons_self)).2
    exact ⟨h.1.enter_new hg, h.2.enter_new hg hself hc hid.2⟩
  · exact fun hid h => ⟨h.1.enter_old hid, h.2.enter_old⟩
  · exact fun h => ⟨h.1.leave, h.2.leave⟩

end ReportInvariant

/-- Where the names of the fields differ, the bad types at the fields of one name are those of one
field. -/
private theorem TypeGraph.badFields_eq {g : TypeGraph} {id : TypeId} {f : Field}
    (hf : f ∈ g.serializableFields id) (h : ((g.serializableFields id).map (·.name)).Nodup) :
    g.badFields id f.name = g.badTypes f.type := by
  rw [badFields, List.filter_eq_singleton hf h, List.map_singleton, List.sum_singleton]

/-- What is reported at a field of a class that is registered when a walk ends. -/
theorem reportsAt_walkRoots {g : TypeGraph} (hg : g.Consistent) (suffix : String)
    (roots : List TypeId) {c : TypeId} (hc : g.classify c = .userClass c)
    (hregistered : (walkRoots g suffix roots ⟨.empty, .empty ⟨0, false⟩⟩).registry.contains c)
    (name : String) :
    reportsAt (walkRoots g suffix roots ⟨.empty, .empty ⟨0, false⟩⟩).queue.diagnostics (g.name c)
      name = g.badFields c name := by
  -- At the end nothing is left on the agenda, so everything has been reported.
  have hend : ReportInvariant g c name [] (walkRoots g suffix roots ⟨.empty, .empty ⟨0, false⟩⟩) :=
    (ReportInvariant.start_of_roots g roots c name).walk hg (Or.inr hc)
      (WalkInvariant.start_of_roots g roots _)
  have hcount := hend.count
  rw [if_pos hregistered, reportsAt_append] at hcount
  exact hcount

/-- A walk of a schema that loads, with a queue that keeps everything, reports at each serializable
field of a class that is entered as many problems as there are bad types at the fields of that name,
however many ways lead to the class.  If the fields differ in their names these are the bad types of
the field itself.  The way to a problem starts at a root that was asked for, and comes to each field
from the class that it belongs to. -/
theorem reports_of_load {s : Schema} {loaded : LoadedSchema} (hs : s.load = .ok loaded)
    (suffix : String) (roots : List TypeId) :
    let found := walkRoots loaded.graph suffix roots ⟨.empty, .empty ⟨0, false⟩⟩
    (∀ c, found.registry.contains c → loaded.graph.classify c = .userClass c →
      ∀ f ∈ loaded.graph.serializableFields c,
        reportsAt found.queue.diagnostics (loaded.graph.name c) f.name =
            loaded.graph.badFields c f.name ∧
          (((loaded.graph.serializableFields c).map (·.name)).Nodup →
            reportsAt found.queue.diagnostics (loaded.graph.name c) f.name =
              loaded.graph.badTypes f.type)) ∧
    ∀ d ∈ found.queue.diagnostics, Traced loaded.graph roots d.context := by
  have hg := (Schema.built_of_load hs).consistent
  refine ⟨fun c hregistered hc f hf => ?_, traced_walkRoots _ _ _ _⟩
  have hcount := reportsAt_walkRoots hg suffix roots hc hregistered f.name
  -- With different names the fields of one name are one field.
  exact ⟨hcount, fun hnames => hcount.trans (TypeGraph.badFields_eq hf hnames)⟩

/-! ### A grid -/

namespace Example

/-- The schema of a grid: nested arrays of numbers, and two fields that share a name. -/
def gridSchema : Schema where
  roots := ["Grid"]
  types := [record "Grid" none
    [field "cells" "int[][][]", field "rows" "int[][]", field "rows" "int[][]"]]

/-- The types of the graph of a grid. -/
def gridTypes : List TypeDescriptor :=
  TypeGraph.preludeTypes ++ [
    ⟨"Grid", .classType { ClassBody.declared false with
      fields := [⟨"cells", ⟨35⟩, false, []⟩, ⟨"rows", ⟨34⟩, false, []⟩,
        ⟨"rows", ⟨34⟩, false, []⟩] }⟩,
    ⟨"int[]", .arrayType (Primitive.id (.scalar .int))⟩,
    ⟨"int[][]", .arrayType ⟨33⟩⟩,
    ⟨"int[][][]", .arrayType ⟨34⟩⟩]

/-- The graph of a grid. -/
def gridGraph : TypeGraph where
  types := gridTypes.toArray
  parts_lt := by
    have h : ∀ i < gridTypes.length, ∀ p ∈ (gridTypes[i]?.getD .reserved).kind.parts,
        p.index < i := by decide
    intro i t ht p hp
    rw [List.getElem?_toArray] at ht
    have hlt : i < gridTypes.length := (List.getElem?_eq_some_iff.1 ht).1
    exact h i hlt p (by rw [ht]; exact hp)

end Example

/-- The schema of a grid loads to its graph. -/
theorem load_gridSchema :
    Example.gridSchema.load = .ok ⟨Example.gridGraph, [⟨32⟩]⟩ :=
  Schema.load_eq_of_types (by decide +kernel)

/-- The fields of a grid are in ascending order of name. -/
private theorem serializableFields_grid : Example.gridGraph.serializableFields ⟨32⟩ =
    [⟨"cells", ⟨35⟩, false, []⟩, ⟨"rows", ⟨34⟩, false, []⟩, ⟨"rows", ⟨34⟩, false, []⟩] := by cbv

/-- The class of a grid is entered. -/
theorem contains_walkRoots_grid (suffix : String) :
    (walkRoots Example.gridGraph suffix [⟨32⟩] ⟨.empty, .empty ⟨0, false⟩⟩).registry.contains
      ⟨32⟩ := by
  have hg := (Schema.built_of_load load_gridSchema).consistent
  have hend : WalkInvariant Example.gridGraph [⟨32⟩] []
      (walkRoots Example.gridGraph suffix [⟨32⟩] ⟨.empty, .empty ⟨0, false⟩⟩) :=
    (WalkInvariant.start_of_roots _ _ _).walk hg
  have hseen : ∀ id, Registry.empty.contains id = decide (id ∈ ([] : List TypeId)) := fun _ => rfl
  -- The walk enters the class alone.
  have horder : Example.gridGraph.orderWithin 10
      ([⟨32⟩].flatMap Example.gridGraph.rootSteps) [] [] = some [⟨32⟩] := by cbv
  refine hend.order _ ?_
  rw [walkRoots, order_walk_of_orderWithin hseen horder]
  exact List.mem_cons_self

/-- Without looking inside the arrays that have no codec, the nested arrays of numbers are reported
once, and the arrays of the two fields that share a name are reported at both. -/
theorem reports_of_grid :
    Example.gridSchema.load = .ok ⟨Example.gridGraph, [⟨32⟩]⟩ ∧
    let found := walkRoots Example.gridGraph "Codec" [⟨32⟩] ⟨.empty, .empty ⟨0, false⟩⟩
    reportsAt found.queue.diagnostics "Grid" "cells" = 1 ∧
      reportsAt found.queue.diagnostics "Grid" "rows" = 2 ∧
      ∀ d ∈ found.queue.diagnostics, Traced Example.gridGraph [⟨32⟩] d.context := by
  obtain ⟨hcount, htraced⟩ := reports_of_load load_gridSchema "Codec" [⟨32⟩]
  have hfields := hcount ⟨32⟩ (contains_walkRoots_grid _) (by decide +kernel)
  -- The counts are those of bad types at the fields of each name.
  rw [serializableFields_grid] at hfields
  refine ⟨load_gridSchema, ?_, ?_, htraced⟩
  · exact (hfields _ List.mem_cons_self).1.trans (by cbv)
  · exact (hfields _ (List.mem_cons_of_mem _ List.mem_cons_self)).1.trans (by cbv)

/-- The tree of nested arrays of numbers has two bad types where it is not cut, but one problem is
reported; and the tree of each field that shares its name has one, but two problems are reported. -/
theorem not_as_many_reports_as_bad_types :
    Example.gridSchema.load = .ok ⟨Example.gridGraph, [⟨32⟩]⟩ ∧
    let found := walkRoots Example.gridGraph "Codec" [⟨32⟩] ⟨.empty, .empty ⟨0, false⟩⟩
    found.registry.contains ⟨32⟩ ∧ Example.gridGraph.classify ⟨32⟩ = .userClass ⟨32⟩ ∧
    (∃ f ∈ Example.gridGraph.serializableFields ⟨32⟩, f.name = "cells" ∧
      reportsAt found.queue.diagnostics "Grid" f.name = 1 ∧
      (Example.gridGraph.treeTypes (fun _ => false) f.type).countP Example.gridGraph.isBad = 2) ∧
    ∃ f ∈ Example.gridGraph.serializableFields ⟨32⟩, f.name = "rows" ∧
      reportsAt found.queue.diagnostics "Grid" f.name = 2 ∧
      (Example.gridGraph.treeTypes (fun _ => false) f.type).countP Example.gridGraph.isBad = 1 := by
  have hg := (Schema.built_of_load load_gridSchema).consistent
  have hclass : Example.gridGraph.classify ⟨32⟩ = .userClass ⟨32⟩ := by decide +kernel
  -- The same counts as above, beside those of the trees that are not cut.
  have hcount := reportsAt_walkRoots hg "Codec" [⟨32⟩] hclass (contains_walkRoots_grid _)
  rw [serializableFields_grid]
  refine ⟨load_gridSchema, contains_walkRoots_grid _, hclass,
    ⟨⟨"cells", ⟨35⟩, false, []⟩, List.mem_cons_self, rfl, (hcount "cells").trans (by cbv), by cbv⟩,
    ⟨⟨"rows", ⟨34⟩, false, []⟩, List.mem_cons_of_mem _ List.mem_cons_self, rfl,
      (hcount "rows").trans (by cbv), by cbv⟩⟩

end GraphCodec
