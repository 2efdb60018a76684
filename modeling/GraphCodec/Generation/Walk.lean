import GraphCodec.Diagnostic.Queue
import GraphCodec.Generation.Classification
import GraphCodec.Generation.Registry

/-!
# The walk

The walk starts at the roots and goes through everything that can be reached from them: the types
that stand inside a type, and for a class its superclass if that adds fields, all its subtypes, and
the types of its serializable fields.  It registers every type that needs a codec of its own, and
reports every type that has none, with the way on which it was reached.

What a type asks for is a list of steps that does not depend on what has been seen
(`TypeGraph.typeSteps`).  The walk works through an agenda of steps.  Entering a class puts the
steps of its body in front of the agenda, unless the class is registered already, so each class is
entered once and the walk ends.
-/

namespace GraphCodec

/-- A step of the walk. -/
inductive WalkStep where
  | report (d : Diagnostic)
  /-- An enum or class is reached on some way. -/
  | enter (frames : List Frame) (type : TypeId)
  /-- All that an enum or class asks for has been done. -/
  | leave (type : TypeId)
deriving Repr

/-- Reports a problem that was reached on some way. -/
def WalkStep.problem (frames : List Frame) (d : Diagnostic) : WalkStep :=
  .report { d with context := frames }

namespace TypeGraph

/-- What is wrong with the keys of a map.  Keys that are written in an array are read back as
instances of their type, so there must be some. -/
def keySteps (g : TypeGraph) (frames : List Frame) (id : TypeId) : List WalkStep :=
  match g.classify id with
  | .map key _ .paired =>
    match g.classify key with
    | .userClass c =>
      if g.lacksInstances c then [.problem frames (.abstractNotAllowed (g.name key) "map key")]
      else []
    | _ => []
  | _ => []

/-- What a type itself asks for, apart from the types that stand inside it. -/
def ownSteps (g : TypeGraph) (frames : List Frame) (id : TypeId) : List WalkStep :=
  match g.classify id with
  | .enum => [.enter frames id]
  | .userClass c => [.enter frames c]
  | .missingTypeArguments => [.problem frames (.missingTypeArguments (g.name id))]
  | .unsupported why => [.problem frames (.unsupportedType (g.name id) why.reason)]
  | _ => []

/-- What a type asks for that was reached on some way. -/
def typeSteps (g : TypeGraph) (frames : List Frame) (id : TypeId) : List WalkStep :=
  g.keySteps frames id ++
    (g.positions id).attach.flatMap (fun p =>
      g.typeSteps (frames ++ [.argument (g.name p.1)]) p.1) ++
    g.ownSteps frames id
termination_by id.index
decreasing_by exact index_lt_of_mem_positions p.2

/-- The superclass that a class is walked on to, if it adds fields. -/
def superclassSteps (g : TypeGraph) (frames : List Frame) (id : TypeId) : List WalkStep :=
  if g.hasInheritedFields id then
    (g.superclass? id).toList.flatMap (g.typeSteps frames)
  else []

/-- What the body of a class asks for. -/
def bodySteps (g : TypeGraph) (frames : List Frame) (id : TypeId) : List WalkStep :=
  let frames := frames ++ [.type (g.name id)]
  g.superclassSteps frames id ++
    (g.subtypes id).flatMap (g.typeSteps frames) ++
    (g.serializableFields id).flatMap fun f =>
      g.typeSteps (frames ++ [.field (g.name id) f.name]) f.type

/-- What a root asks for.  A root is something that a codec is generated for, or a container. -/
def rootSteps (g : TypeGraph) (root : TypeId) : List WalkStep :=
  let frames := [.root (g.name root)]
  let c := g.classify root
  if c.isBuiltIn then [.problem frames (.unknownRoot (g.name root))]
  else
    match c with
    | .userClass id =>
      if g.lacksInstances id then
        [.problem frames (.abstractNotAllowed (g.name root) "generation root")]
      else g.typeSteps frames root
    | _ => g.typeSteps frames root

end TypeGraph

/-- What a walk has found. -/
structure WalkState where
  registry : Registry
  queue : DiagnosticQueue

namespace WalkState

/-- Adds a diagnostic. -/
def report (s : WalkState) (d : Diagnostic) : WalkState := { s with queue := (s.queue.add d).2 }

/-- Registers a type under a fresh identity. -/
def register (s : WalkState) (g : TypeGraph) (suffix : String) (id : TypeId) : WalkState :=
  let identity := s.registry.freshIdentity (g.name id) suffix
  { s with registry := (s.registry.register id (g.name id) identity).2 }

/-- Gives a type its place in the generation order.  A type that is left has been entered, so it is
registered. -/
def leave (s : WalkState) (id : TypeId) : WalkState :=
  match s.registry.finish id with
  | .ok registry => { s with registry := registry }
  | .error _ => s

/-- The number of types that could still be registered. -/
def unregistered (s : WalkState) (g : TypeGraph) : Nat :=
  g.places.countP fun id => !s.registry.contains id

/-- Leaving a class does not change how many types are unregistered. -/
theorem unregistered_leave (s : WalkState) (g : TypeGraph) (id : TypeId) :
    (s.leave id).unregistered g = s.unregistered g := by
  unfold leave
  split
  · rename_i h
    simp only [unregistered, Registry.contains_finish h]
  · rfl

/-- If one more element satisfies the weaker of two conditions, its count is greater. -/
theorem countP_lt_of_imp {α : Type} {p q : α → Bool} {l : List α} {a : α}
    (imp : ∀ x, p x = true → q x = true) (mem : a ∈ l) (ha : p a = false) (hb : q a = true) :
    l.countP p < l.countP q := by
  induction l with
  | nil => simp at mem
  | cons x l ih =>
    have mono : l.countP p ≤ l.countP q := List.countP_mono_left fun x _ => imp x
    simp only [List.countP_cons]
    -- At the element itself the counts differ by one, elsewhere they are ordered.
    by_cases hx : a = x
    · subst hx
      simp only [ha, hb]
      simp only [Bool.false_eq_true, if_false, if_true]
      omega
    · have lt := ih ((List.mem_cons.1 mem).resolve_left hx)
      split
      · rename_i h
        rw [if_pos (imp x h)]
        exact Nat.add_lt_add_right lt 1
      · exact Nat.lt_of_lt_of_le lt (Nat.le_add_right _ _)

/-- Registering a new type lowers the number of types that are unregistered. -/
theorem unregistered_register {s : WalkState} {g : TypeGraph} {suffix : String} {id : TypeId}
    (mem : id ∈ g.places) (new : s.registry.contains id = false) :
    (s.register g suffix id).unregistered g < s.unregistered g := by
  apply countP_lt_of_imp (a := id) _ mem
  · simp [register, Registry.contains_register]
  · simp [new]
  -- A type that is unregistered afterwards was so before.
  · intro x hx
    simp only [register, Registry.contains_register, Bool.not_or, Bool.and_eq_true] at hx
    exact hx.2

end WalkState

/-- Works through an agenda. -/
def walk (g : TypeGraph) (suffix : String) (agenda : List WalkStep) (s : WalkState) : WalkState :=
  match agenda with
  | [] => s
  | .report d :: rest => walk g suffix rest (s.report d)
  | .enter frames id :: rest =>
    if id ∈ g.places ∧ s.registry.contains id = false then
      walk g suffix (g.bodySteps frames id ++ .leave id :: rest) (s.register g suffix id)
    else walk g suffix rest s
  | .leave id :: rest => walk g suffix rest (s.leave id)
termination_by (s.unregistered g, agenda.length)
decreasing_by
  · apply Prod.Lex.right; simp
  · rename_i h
    apply Prod.Lex.left
    exact WalkState.unregistered_register h.1 h.2
  · apply Prod.Lex.right; simp
  · rw [WalkState.unregistered_leave]
    apply Prod.Lex.right; simp

/-- Walks from roots, one after another. -/
def walkRoots (g : TypeGraph) (suffix : String) (roots : List TypeId) (s : WalkState) :
    WalkState :=
  walk g suffix (roots.flatMap g.rootSteps) s

end GraphCodec
