import GraphCodec.Proofs.Generation.Order
import GraphCodec.Proofs.Generation.Renaming

/-!
# Visits

`walkRoots` works through an agenda.  Here the walk is written as visits that call each other: a
visit goes to the types inside a type and to the body of a class, and comes back.  It keeps the way
to where it is on a stack, onto which it puts a frame before it goes deeper and from which it takes
the frame afterwards, and it finishes a class after the body.  Visits may only be nested to some
depth, and a run that goes deeper has no result.

Each visit does what its steps say (`Does`): it leads to what the walk of these steps leads to, with
the same stack as before, and it finishes what it registers, once (`Finishes`).  How deep the visits
are nested is bounded by the number of types that are not registered yet, because a body is only
visited after one of them has been registered, and by the place of the type, because the types
inside a type stand at smaller places (`does_visit`).  So the visits from roots come to an end
whatever cycles the graph has (`visitRoots_returns`).
-/

namespace GraphCodec

/-- What visits work on. -/
structure VisitState where
  found : WalkState
  /-- The way to the type that is visited, outermost step first. -/
  context : List Frame
  /-- The types that have been finished, in this order. -/
  finished : List TypeId

/-- A visit, which has no result if it is nested too deep. -/
abbrev Visiting := StateT VisitState Option

namespace Visiting

/-- A visit without a result. -/
def stop {α : Type} : Visiting α := fun _ => none

/-- Reports a problem where the visit is. -/
def report (d : Diagnostic) : Visiting Unit :=
  modify fun s => { s with found := s.found.report { d with context := s.context } }

/-- Does something one step further down. -/
def under (frame : Frame) (inner : Visiting Unit) : Visiting Unit := do
  modify fun s => { s with context := s.context ++ [frame] }
  inner
  modify fun s => { s with context := s.context.dropLast }

/-- Registers a type under a fresh identity, and says whether it was not registered before. -/
def register (g : TypeGraph) (suffix : String) (id : TypeId) : Visiting Bool := do
  let s ← get
  if s.found.registry.contains id then return false
  else
    let identity := s.found.registry.freshIdentity (g.name id) suffix
    let registered := s.found.registry.register id (g.name id) identity
    set { s with found := { s.found with registry := registered.2 } }
    return registered.1

/-- Gives a type its place in the generation order. -/
def finish (id : TypeId) : Visiting Unit := do
  let s ← get
  match s.found.registry.finish id with
  | .ok registry =>
    set { s with
      found := { s.found with registry := registry }
      finished := s.finished ++ [id] }
  | .error e => report (.internalError e.message)

section

variable (g : TypeGraph) (suffix : String)

/-- Registers an enum or class, visits what belongs to it, and finishes it.  Nothing is done if it
is registered already. -/
def enter (id : TypeId) (body : Visiting Unit) : Visiting Unit := do
  if ← register g suffix id then
    body
    finish id

/-- Reports keys that have no instances. -/
def checkMapKey (key : TypeId) : Visiting Unit :=
  match g.classify key with
  | .userClass c =>
    if g.lacksInstances c then report (.abstractNotAllowed (g.name key) "map key") else pure ()
  | _ => pure ()

variable (visit : TypeId → Visiting Unit)

/-- Visits a type inside a type. -/
def visitArgument (id : TypeId) : Visiting Unit := under (.argument (g.name id)) (visit id)

/-- Visits the superclass of a class, if it adds fields. -/
def visitSuperclass (id : TypeId) : Visiting Unit :=
  if g.hasInheritedFields id then
    match g.superclass? id with
    | some above => visit above
    | none => pure ()
  else pure ()

/-- Visits what the body of a class is made of. -/
def visitBody (id : TypeId) : Visiting Unit :=
  under (.type (g.name id)) do
    visitSuperclass g visit id
    (g.subtypes id).forM visit
    (g.serializableFields id).forM fun f => under (.field (g.name id) f.name) (visit f.type)

/-- Visits a type, where other types are visited in some way. -/
def visitType (id : TypeId) : Visiting Unit :=
  match g.classify id with
  | .unsupported why => report (.unsupportedType (g.name id) why.reason)
  | .missingTypeArguments => report (.missingTypeArguments (g.name id))
  | .enum => enter g suffix id (pure ())
  | .sequence _ element => visitArgument g visit element
  | .map key value keys => do
    (if keys = .paired then checkMapKey g key else pure ())
    visitArgument g visit key
    visitArgument g visit value
  | .userClass c => do
    (g.typeArguments id).forM (visitArgument g visit)
    enter g suffix c (visitBody g visit c)
  | _ => pure ()

end

/-- Visits a type, with visits nested to at most some depth. -/
def visit (g : TypeGraph) (suffix : String) : Nat → TypeId → Visiting Unit
  | 0, _ => stop
  | depth + 1, id => visitType g suffix (visit g suffix depth) id

/-- Visits a root.  A root is something that a codec is generated for, or a container. -/
def visitRoot (g : TypeGraph) (suffix : String) (depth : Nat) (root : TypeId) : Visiting Unit :=
  under (.root (g.name root)) <|
    if (g.classify root).isBuiltIn then report (.unknownRoot (g.name root))
    else
      match g.classify root with
      | .userClass c =>
        if g.lacksInstances c then report (.abstractNotAllowed (g.name root) "generation root")
        else visit g suffix depth root
      | _ => visit g suffix depth root

end Visiting

/-! ### Walks one after another -/

/-- An agenda is worked through one part after the other. -/
theorem walk_append {g : TypeGraph} {suffix : String} (steps rest : List WalkStep) (s : WalkState) :
    walk g suffix (steps ++ rest) s = walk g suffix rest (walk g suffix steps s) := by
  induction steps, s using walk.induct g suffix with
  | case1 s => rw [List.nil_append, walk.eq_def g suffix [] s]
  | case2 s d steps ih => rw [List.cons_append, walk, ih, walk]
  -- The new class puts its body and its end in front of the rest of both agendas.
  | case3 s frames id steps hid ih =>
    rw [List.cons_append, walk, if_pos hid, walk.eq_def g suffix (.enter frames id :: steps) s,
      ← List.cons_append, ← List.append_assoc, ih]
    simp only [if_pos hid]
  | case4 s frames id steps hid ih =>
    rw [List.cons_append, walk, if_neg hid, ih, walk.eq_def g suffix (.enter frames id :: steps) s]
    simp only [if_neg hid]
  | case5 s id steps ih => rw [List.cons_append, walk, ih, walk]

/-- A type that has been registered is registered. -/
private theorem WalkState.contains_register_self {s : WalkState} {g : TypeGraph} {suffix : String}
    {id : TypeId} : (s.register g suffix id).registry.contains id = true := by
  rw [WalkState.contains_register, decide_eq_true rfl, Bool.true_or]

/-- What is finished on the way from one state to another: whatever is registered there, once, and
in the generation order. -/
structure Finishes (s s' : WalkState) (new : List TypeId) : Prop where
  nodup : new.Nodup
  fresh : ∀ id ∈ new, s.registry.contains id = false
  contains : ∀ id, s'.registry.contains id ↔ s.registry.contains id ∨ id ∈ new
  order : (∀ id ∈ s.registry.order, s.registry.contains id) →
    s'.registry.order = s.registry.order ++ new

namespace Finishes

variable {s s' s'' : WalkState} {new new' : List TypeId}

/-- Nothing is finished where nothing is registered. -/
theorem of_registry_eq (h : s'.registry = s.registry) : Finishes s s' [] where
  nodup := List.nodup_nil
  fresh := nofun
  contains := fun id => by simp [h]
  order := fun _ => by simp [h]

private theorem trans (h : Finishes s s' new) (h' : Finishes s' s'' new') :
    Finishes s s'' (new ++ new') where
  nodup := by
    refine List.nodup_append.2 ⟨h.nodup, h'.nodup, fun a ha b hb heq => ?_⟩
    -- What is finished by the second visit was not registered during the first.
    have hold : s'.registry.contains a := (h.contains a).2 (Or.inr ha)
    rw [heq, h'.fresh b hb] at hold
    cases hold
  fresh := by
    intro id hid
    rcases List.mem_append.1 hid with hid | hid
    · exact h.fresh id hid
    · have hnot := h'.fresh id hid
      rw [Bool.eq_false_iff] at hnot ⊢
      exact fun hold => hnot ((h.contains id).2 (Or.inl hold))
  contains := fun id => by rw [h'.contains, h.contains, List.mem_append, or_assoc]
  order := by
    intro hs
    -- The order grows by what each visit finishes.
    have hmid := h.order hs
    rw [h'.order ?_, hmid, List.append_assoc]
    intro id hid
    rw [hmid, List.mem_append] at hid
    exact (h.contains id).2 (hid.imp_left (hs id))

/-- Fewer types are left to be registered. -/
private theorem unregistered_le (h : Finishes s s' new) (g : TypeGraph) :
    s'.unregistered g ≤ s.unregistered g := by
  refine List.countP_mono_left fun id _ hid => ?_
  rw [Bool.not_eq_true', Bool.eq_false_iff] at hid ⊢
  exact fun hold => hid ((h.contains id).2 (Or.inl hold))

/-- A type that is registered, with what is finished then, before it is left itself. -/
private theorem entered {g : TypeGraph} {suffix : String} {id : TypeId}
    (hnew : s.registry.contains id = false) (h : Finishes (s.register g suffix id) s' new) :
    Finishes s (s'.leave id) (new ++ [id]) := by
  have hid : s'.registry.contains id := (h.contains id).2 (Or.inl WalkState.contains_register_self)
  -- The type itself is registered, so it is not among what is new.
  have hfresh : id ∉ new := by
    intro hmem
    have := h.fresh id hmem
    rw [WalkState.contains_register_self] at this
    cases this
  constructor
  case nodup =>
    refine List.nodup_append.2 ⟨h.nodup, List.nodup_singleton id, fun a ha b hb heq => ?_⟩
    rw [heq, List.mem_singleton.1 hb] at ha
    exact hfresh ha
  case fresh =>
    intro x hx
    rcases List.mem_append.1 hx with hx | hx
    · have := h.fresh x hx
      rw [WalkState.contains_register, Bool.or_eq_false_iff] at this
      exact this.2
    · rw [List.mem_singleton.1 hx]
      exact hnew
  case contains =>
    intro x
    rw [WalkState.contains_leave, h.contains, WalkState.contains_register, Bool.or_eq_true,
      decide_eq_true_eq, List.mem_append, List.mem_singleton]
    tauto
  case order =>
    -- Everything of `new` is finished before the type itself, so its place is the last one.
    intro hs
    have horder := h.order ?_
    · rw [WalkState.order_register] at horder
      rw [WalkState.order_leave hid, horder, if_neg, List.append_assoc]
      intro hmem
      rcases List.mem_append.1 hmem with hmem | hmem
      · rw [hs id hmem] at hnew
        cases hnew
      · exact hfresh hmem
    · intro x hx
      rw [WalkState.order_register] at hx
      rw [WalkState.contains_register, hs x hx, Bool.or_true]

end Finishes

/-! ### What a visit does -/

/-- A visit after another one goes on where that one got to. -/
theorem Visiting.run_bind {α β : Type} {m : Visiting α} {next : α → Visiting β} {s s' : VisitState}
    {a : α} (h : m.run s = some (a, s')) : (m >>= next).run s = (next a).run s' := by
  rw [StateT.run_bind, h]
  rfl

section Registering

variable {g : TypeGraph} {suffix : String} {id : TypeId} {found : WalkState}
  {context : List Frame} {finished : List TypeId}

/-- Registering a type that is registered does nothing. -/
private theorem Visiting.run_register_old (h : found.registry.contains id = true) :
    (register g suffix id).run ⟨found, context, finished⟩ =
      some (false, ⟨found, context, finished⟩) := by
  rw [register, run_bind (StateT.run_get _), if_pos h]
  rfl

/-- A new type is registered under a fresh identity. -/
private theorem Visiting.run_register_new (h : found.registry.contains id = false) :
    (register g suffix id).run ⟨found, context, finished⟩ =
      some (true, ⟨found.register g suffix id, context, finished⟩) := by
  have hnot : ¬found.registry.contains id = true := by simp [h]
  rw [register, run_bind (StateT.run_get _), if_neg hnot]
  have hnew : (found.registry.register id (g.name id)
      (found.registry.freshIdentity (g.name id) suffix)).1 = true := by
    rw [Registry.register, if_neg hnot]
  exact (run_bind (StateT.run_set _ _)).trans (congrArg (fun isNew => some (isNew, _)) hnew)

/-- Finishing a registered type gives it its place. -/
private theorem Visiting.run_finish (h : found.registry.contains id = true) :
    (finish id).run ⟨found, context, finished⟩ =
      some ((), ⟨found.leave id, context, finished ++ [id]⟩) := by
  rw [finish, run_bind (StateT.run_get _), WalkState.leave]
  obtain ⟨registry, hregistry⟩ : ∃ registry, found.registry.finish id = .ok registry := by
    rw [Registry.finish, if_pos h]
    exact ⟨_, rfl⟩
  rw [hregistry]
  rfl

end Registering

section

variable (g : TypeGraph) (suffix : String)

/-- Whether a visit does what its steps say as long as no more than some number of types are left to
be registered: it has a result, it leads to what the walk of the steps leads to, with the same way
on the stack, and it finishes what it registers. -/
def Does (m : Visiting Unit) (steps : List Frame → List WalkStep) (n : Nat) : Prop :=
  ∀ found context finished, found.unregistered g ≤ n → ∃ new,
    m.run ⟨found, context, finished⟩ =
        some ((), ⟨walk g suffix (steps context) found, context, finished ++ new⟩) ∧
      Finishes found (walk g suffix (steps context) found) new

end

namespace Does

variable {g : TypeGraph} {suffix : String} {m m' : Visiting Unit}
  {steps steps' : List Frame → List WalkStep} {n : Nat}

/-- A visit that does some steps does the same steps written in another way. -/
theorem congr (h : Does g suffix m steps n) (heq : ∀ frames, steps' frames = steps frames) :
    Does g suffix m steps' n := by
  rwa [funext heq]

/-- A visit does nothing where there are no steps. -/
theorem nothing : Does g suffix (pure ()) (fun _ => []) n := by
  intro found context finished _
  refine ⟨[], ?_, ?_⟩
  · rw [walk, List.append_nil]
    rfl
  · rw [walk]
    exact .of_registry_eq rfl

/-- Reporting a diagnostic does what the step for it does, on the way that is on the stack. -/
theorem report (d : Diagnostic) :
    Does g suffix (Visiting.report d) (fun frames => [.problem frames d]) n := by
  intro found context finished _
  have hwalk : walk g suffix [.problem context d] found =
      found.report { d with context := context } := by
    rw [WalkStep.problem, walk, walk]
  refine ⟨[], ?_, ?_⟩
  · rw [hwalk, List.append_nil]
    rfl
  · rw [hwalk]
    exact .of_registry_eq rfl

/-- One visit after another. -/
theorem followedBy (h : Does g suffix m steps n) (h' : Does g suffix m' steps' n) :
    Does g suffix (m >>= fun _ => m') (fun frames => steps frames ++ steps' frames) n := by
  intro found context finished hn
  obtain ⟨new, hrun, hnew⟩ := h found context finished hn
  -- The first visit leaves no more types to be registered.
  have hle := Nat.le_trans (hnew.unregistered_le g) hn
  obtain ⟨new', hrun', hnew'⟩ := h' _ context (finished ++ new) hle
  refine ⟨new ++ new', ?_, ?_⟩
  · rw [Visiting.run_bind hrun, hrun', walk_append, List.append_assoc]
  · rw [walk_append]
    exact hnew.trans hnew'

/-- A visit of each element of a list. -/
theorem forM {α : Type} {visit : α → Visiting Unit} {steps : α → List Frame → List WalkStep}
    {l : List α} (h : ∀ a ∈ l, Does g suffix (visit a) (steps a) n) :
    Does g suffix (l.forM visit) (fun frames => l.flatMap fun a => steps a frames) n := by
  induction l with
  | nil => exact nothing
  | cons a l ih =>
    exact (h a List.mem_cons_self).followedBy (ih fun x hx => h x (List.mem_cons_of_mem a hx))

/-- A frame is on the stack during a visit and is taken off again. -/
theorem under (frame : Frame) (h : Does g suffix m steps n) :
    Does g suffix (Visiting.under frame m) (fun frames => steps (frames ++ [frame])) n := by
  intro found context finished hn
  obtain ⟨new, hrun, hnew⟩ := h found (context ++ [frame]) finished hn
  refine ⟨new, ?_, hnew⟩
  -- The frame is put on the stack, and the last frame is taken off it.
  rw [Visiting.under, Visiting.run_bind (StateT.run_modify _ _)]
  rw [Visiting.run_bind hrun, StateT.run_modify]
  simp only [List.dropLast_concat]
  rfl

/-- An enum or class is registered, then its body is visited with fewer types left, and then it is
finished.  Nothing is done if it is registered already. -/
private theorem enter {id : TypeId} (hid : id ∈ g.places) {body : Visiting Unit}
    (hbody : ∀ k < n, Does g suffix body (fun frames => g.bodySteps frames id) k) :
    Does g suffix (Visiting.enter g suffix id body) (fun frames => [.enter frames id]) n := by
  intro found context finished hn
  -- Whoever comes first registers the type; later visits find it there.
  cases hold : found.registry.contains id with
  | true =>
    have hwalk : walk g suffix [.enter context id] found = found := by
      rw [walk, if_neg (by simp [hold]), walk]
    refine ⟨[], ?_, ?_⟩
    · rw [hwalk, List.append_nil, Visiting.enter,
        Visiting.run_bind (Visiting.run_register_old hold)]
      rfl
    · rw [hwalk]
      exact .of_registry_eq rfl
  | false =>
    -- The body is visited with one type less that is not registered.
    have hlt : (found.register g suffix id).unregistered g < found.unregistered g :=
      WalkState.unregistered_register hid hold
    obtain ⟨new, hbodyRun, hnew⟩ := hbody _ (Nat.lt_of_lt_of_le hlt hn)
      (found.register g suffix id) context finished (Nat.le_refl _)
    have hwalk : walk g suffix [.enter context id] found =
        (walk g suffix (g.bodySteps context id) (found.register g suffix id)).leave id := by
      rw [walk_enter_new hid hold rfl, walk_append, walk, walk]
    have hregistered := (hnew.contains id).2 (Or.inl WalkState.contains_register_self)
    refine ⟨new ++ [id], ?_, ?_⟩
    · rw [hwalk, Visiting.enter, Visiting.run_bind (Visiting.run_register_new hold), if_pos rfl,
        Visiting.run_bind hbodyRun, Visiting.run_finish hregistered, List.append_assoc]
    · rw [hwalk]
      exact .entered hold hnew

end Does

/-! ### What the visits of types do -/

section

variable {g : TypeGraph} {suffix : String} {visit : TypeId → Visiting Unit} {id : TypeId} {n : Nat}

/-- Checking the keys of a map does what its steps for the keys do. -/
private theorem does_checkMapKey {key value : TypeId}
    (hid : g.classify id = .map key value .paired) :
    Does g suffix (Visiting.checkMapKey g key) (fun frames => g.keySteps frames id) n := by
  rw [Visiting.checkMapKey]
  cases hkey : g.classify key with
  | userClass c =>
    dsimp only
    split
    case isTrue hlacks =>
      exact (Does.report _).congr fun frames => by simp [TypeGraph.keySteps, hid, hkey, hlacks]
    case isFalse hlacks =>
      exact Does.nothing.congr fun frames => by simp [TypeGraph.keySteps, hid, hkey, hlacks]
  | _ => exact Does.nothing.congr fun frames => by simp [TypeGraph.keySteps, hid, hkey]

/-- The body of a class is visited as its steps say, if the types that it is made of are. -/
private theorem does_visitBody
    (h : ∀ t ∈ g.bodyTypes id, Does g suffix (visit t) (fun frames => g.typeSteps frames t) n) :
    Does g suffix (Visiting.visitBody g visit id) (fun frames => g.bodySteps frames id) n := by
  unfold TypeGraph.bodyTypes at h
  simp only [List.mem_append, or_imp, forall_and, List.forall_mem_map] at h
  obtain ⟨⟨hsuper, hsubtypes⟩, hfields⟩ := h
  -- The superclass is visited if it adds fields.
  have habove : Does g suffix (Visiting.visitSuperclass g visit id)
      (fun frames => g.superclassSteps frames id) n := by
    rw [Visiting.visitSuperclass]
    split
    case isTrue hin =>
      rw [if_pos hin] at hsuper
      cases hs : g.superclass? id with
      | none => exact Does.nothing.congr fun frames => by simp [TypeGraph.superclassSteps, hs]
      | some above =>
        rw [hs] at hsuper
        exact (hsuper above (Option.mem_toList.2 rfl)).congr fun frames => by
          simp [TypeGraph.superclassSteps, hin, hs]
    case isFalse hin =>
      exact Does.nothing.congr fun frames => by simp [TypeGraph.superclassSteps, hin]
  -- Then the subtypes and the fields, all of them below a frame for the type.
  refine ((habove.followedBy ((Does.forM hsubtypes).followedBy (Does.forM fun f hf =>
    (hfields f hf).under (.field (g.name id) f.name)))).under (.type (g.name id))).congr ?_
  intro frames
  rw [TypeGraph.bodySteps, List.append_assoc]

/-- What a type asks for whose classification is not that of a map. -/
private theorem typeSteps_eq_of_not_map
    (hid : ∀ key value keys, g.classify id ≠ .map key value keys)
    (frames : List Frame) : g.typeSteps frames id =
      ((g.positions id).flatMap fun p => g.typeSteps (frames ++ [.argument (g.name p)]) p) ++
        g.ownSteps frames id := by
  -- Only maps have steps for their keys.
  have hkeys : g.keySteps frames id = [] := by
    unfold TypeGraph.keySteps
    split
    case h_1 hmap => exact absurd hmap (hid _ _ _)
    case h_2 => rfl
  rw [TypeGraph.typeSteps_eq, hkeys, List.nil_append]

/-- A type is visited as its steps say, if the types inside it and those of the bodies that it leads
to are; a body is visited with fewer types left. -/
private theorem does_visitType (hg : g.Consistent)
    (hpositions : ∀ p ∈ g.positions id,
      Does g suffix (visit p) (fun frames => g.typeSteps frames p) n)
    (hbody : ∀ c, g.classify id = .userClass c → ∀ t ∈ g.bodyTypes c, ∀ k < n,
      Does g suffix (visit t) (fun frames => g.typeSteps frames t) k) :
    Does g suffix (Visiting.visitType g suffix visit id) (fun frames => g.typeSteps frames id)
      n := by
  have hargument : ∀ p ∈ g.positions id, Does g suffix (Visiting.visitArgument g visit p)
      (fun frames => g.typeSteps (frames ++ [.argument (g.name p)]) p) n := fun p hp =>
    (hpositions p hp).under _
  -- The steps of a type that is no map are those of the types inside it and its own.
  have hsteps : (∀ key value keys, g.classify id ≠ .map key value keys) → ∀ frames,
      g.typeSteps frames id =
        ((g.positions id).flatMap fun p => g.typeSteps (frames ++ [.argument (g.name p)]) p) ++
          g.ownSteps frames id := typeSteps_eq_of_not_map
  rw [Visiting.visitType]
  unfold TypeGraph.positions TypeGraph.ownSteps at hsteps
  unfold TypeGraph.positions at hargument
  cases hid : g.classify id with
  -- Types without codecs are reported.
  | unsupported why =>
    rw [hid] at hsteps
    exact (Does.report _).congr (hsteps (by simp))
  | missingTypeArguments =>
    rw [hid] at hsteps
    exact (Does.report _).congr (hsteps (by simp))
  -- An enum is entered, and its body asks for nothing.
  | enum =>
    have hplace := TypeGraph.WrittenBy.mem_places (Or.inl ⟨hid, rfl⟩)
    have hnothing : ∀ frames, g.bodySteps frames id = [] := by
      intro frames
      rw [List.eq_nil_iff_forall_not_mem]
      intro step hstep
      obtain ⟨t, ht, -⟩ := TypeGraph.exists_of_mem_bodySteps hstep
      rw [hg.bodyTypes_enum hid] at ht
      cases ht
    rw [hid] at hsteps
    exact (Does.enter hplace fun k _ => Does.nothing.congr hnothing).congr (hsteps (by simp))
  -- The element of a sequence, and key and value of a map, are visited below a frame of their own.
  | sequence shape element =>
    rw [hid] at hsteps hargument
    refine (hargument element (by simp [Classification.elements])).congr fun frames => ?_
    rw [hsteps (by simp)]
    simp [Classification.elements]
  | map key value keys =>
    rw [hid] at hargument
    have hkeys : Does g suffix (if keys = .paired then Visiting.checkMapKey g key else pure ())
        (fun frames => g.keySteps frames id) n := by
      cases keys with
      | paired => exact does_checkMapKey hid
      | _ => exact Does.nothing.congr fun frames => by simp [TypeGraph.keySteps, hid]
    refine (hkeys.followedBy ((hargument key (by simp [Classification.elements])).followedBy
      (hargument value (by simp [Classification.elements])))).congr fun frames => ?_
    rw [TypeGraph.typeSteps_eq]
    simp [TypeGraph.positions, TypeGraph.ownSteps, Classification.elements, hid]
  -- A class is entered after its arguments have been visited.
  | userClass c =>
    have hplace := TypeGraph.WrittenBy.mem_places (Or.inr hid)
    rw [hid] at hsteps hargument
    exact ((Does.forM hargument).followedBy (Does.enter hplace fun k hk =>
      does_visitBody fun t ht => hbody c hid t ht k hk)).congr (hsteps (by simp))
  -- For the types that are left there is nothing to do.
  | _ =>
    rw [hid] at hsteps
    exact Does.nothing.congr (hsteps (by simp))

/-- Only a place of the graph has types inside it. -/
private theorem TypeGraph.mem_places_of_mem_positions {p : TypeId} (h : p ∈ g.positions id) :
    id ∈ g.places := by
  refine Decidable.byContradiction fun hid => ?_
  have hparts := mem_parts_of_mem_positions h
  rw [kind_of_not_mem hid] at hparts
  cases hparts

/-- Visits are nested no deeper than the types that are left to be registered and the place of the
type allow. -/
theorem does_visit (hg : g.Consistent) {depth : Nat}
    (h : n * (g.size + 1) + min id.index g.size < depth) :
    Does g suffix (Visiting.visit g suffix depth id) (fun frames => g.typeSteps frames id) n := by
  -- By induction on the depth: the place gets smaller, or the number of types that are left.
  induction depth generalizing n id with
  | zero => omega
  | succ depth ih =>
    refine does_visitType hg (fun p hp => ih ?_) fun c _ t _ k hk => ih ?_
    · have hlt := TypeGraph.index_lt_of_mem_positions hp
      have hsize := TypeGraph.mem_places.1 (TypeGraph.mem_places_of_mem_positions hp)
      omega
    · have hle : (k + 1) * (g.size + 1) ≤ n * (g.size + 1) := Nat.mul_le_mul_right _ hk
      rw [Nat.succ_mul] at hle
      omega

/-! ### Visits from roots -/

/-- What a root asks for when it is reached on some way. -/
def TypeGraph.rootStepsFrom (g : TypeGraph) (frames : List Frame) (root : TypeId) :
    List WalkStep :=
  let frames := frames ++ [.root (g.name root)]
  let c := g.classify root
  if c.isBuiltIn then [.problem frames (.unknownRoot (g.name root))]
  else
    match c with
    | .userClass id =>
      if g.lacksInstances id then
        [.problem frames (.abstractNotAllowed (g.name root) "generation root")]
      else g.typeSteps frames root
    | _ => g.typeSteps frames root

/-- Visiting a root does what its steps say, if visits may be nested deeply enough. -/
private theorem does_visitRoot (hg : g.Consistent) {depth : Nat}
    (h : (n + 1) * (g.size + 1) ≤ depth)
    (root : TypeId) : Does g suffix (Visiting.visitRoot g suffix depth root)
      (fun frames => g.rootStepsFrom frames root) n := by
  -- The root itself needs as many levels as the types that are not registered.
  have hvisit : Does g suffix (Visiting.visit g suffix depth root)
      (fun frames => g.typeSteps frames root) n := by
    rw [Nat.succ_mul] at h
    exact does_visit hg (by omega)
  rw [Visiting.visitRoot]
  -- Built-in roots and abstract ones are reported at once; the others are visited.
  cases hbuiltIn : (g.classify root).isBuiltIn with
  | true =>
    exact ((Does.report _).under _).congr fun frames => by simp [TypeGraph.rootStepsFrom, hbuiltIn]
  | false =>
    rw [if_neg Bool.false_ne_true]
    cases hroot : g.classify root with
    | userClass c =>
      rw [hroot] at hbuiltIn
      dsimp only
      split
      case isTrue hlacks =>
        exact ((Does.report _).under _).congr fun frames => by
          simp [TypeGraph.rootStepsFrom, hroot, hbuiltIn, hlacks]
      case isFalse hlacks =>
        exact (hvisit.under _).congr fun frames => by
          simp [TypeGraph.rootStepsFrom, hroot, hbuiltIn, hlacks]
    | _ =>
      rw [hroot] at hbuiltIn
      exact (hvisit.under _).congr fun frames => by
        simp [TypeGraph.rootStepsFrom, hroot, hbuiltIn]

/-- The visits from any roots come to an end, on any graph that can be built and whatever is
registered before.  The way on the stack is then what it was before, and whatever has been
registered has been finished once, in the generation order.  From an empty stack they lead to what
the walk leads to. -/
theorem visitRoots_returns (hg : g.Built) (suffix : String) (roots : List TypeId) (s : VisitState)
    {depth : Nat} (h : (s.found.unregistered g + 1) * (g.size + 1) ≤ depth) :
    ∃ found new, (roots.forM (Visiting.visitRoot g suffix depth)).run s =
        some ((), ⟨found, s.context, s.finished ++ new⟩) ∧
      new.Nodup ∧
      (∀ id, id ∈ new ↔
        found.registry.contains id = true ∧ s.found.registry.contains id = false) ∧
      ((∀ id ∈ s.found.registry.order, s.found.registry.contains id) →
        found.registry.order = s.found.registry.order ++ new) ∧
      (s.context = [] → found = walkRoots g suffix roots s.found) := by
  obtain ⟨found, context, finished⟩ := s
  -- Each root does its steps, one root after the other.
  have hdoes : Does g suffix (roots.forM (Visiting.visitRoot g suffix depth))
      (fun frames => roots.flatMap (g.rootStepsFrom frames)) (found.unregistered g) :=
    .forM fun root _ => does_visitRoot hg.consistent h root
  obtain ⟨new, hrun, hnew⟩ := hdoes found context finished (Nat.le_refl _)
  refine ⟨_, new, hrun, hnew.nodup, fun id => ⟨fun hid => ?_, ?_⟩, hnew.order, ?_⟩
  -- What is finished is what is registered now and was not before.
  · exact ⟨(hnew.contains id).2 (Or.inr hid), hnew.fresh id hid⟩
  · rintro ⟨hid, hfresh⟩
    refine ((hnew.contains id).1 hid).resolve_left fun hold => ?_
    rw [hold] at hfresh
    cases hfresh
  -- Steps on an empty stack are those of the walk.
  · rintro rfl
    rfl

/-- In a network the visits from the class at the bottom register and finish three classes. -/
theorem visitRoots_returns_of_network : Example.networkGraph.Built ∧
    ∃ depth found, ([⟨36⟩].forM (Visiting.visitRoot Example.networkGraph "Codec" depth)).run
        ⟨⟨.empty, .empty .standard⟩, [], []⟩ =
      some ((), ⟨found, [], [⟨34⟩, ⟨35⟩, ⟨36⟩]⟩) := by
  have hbuilt : Example.networkGraph.Built := Schema.built_of_load Schema.load_networkSchema
  have hwalk : (walkRoots Example.networkGraph "Codec" [⟨36⟩]
      ⟨.empty, .empty .standard⟩).registry.order = [⟨34⟩, ⟨35⟩, ⟨36⟩] := by
    have hseen : ∀ id, Registry.empty.contains id = decide (id ∈ ([] : List TypeId)) := fun _ => rfl
    exact order_walk_of_orderWithin hseen GeneratorConfig.orderWithin_network
  obtain ⟨found, new, hrun, -, -, horder, hfound⟩ := visitRoots_returns hbuilt "Codec" [⟨36⟩]
    ⟨⟨.empty, .empty .standard⟩, [], []⟩ (Nat.le_refl _)
  -- What is finished is the order of the walk.
  have hnew : new = [⟨34⟩, ⟨35⟩, ⟨36⟩] := by
    rw [hfound rfl, hwalk] at horder
    exact (horder nofun).symm
  rw [hnew] at hrun
  exact ⟨hbuilt, _, found, hrun⟩

end

end GraphCodec
