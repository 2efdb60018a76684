import GraphCodec.Decimal.Basic
import GraphCodec.Generation.Identity
import GraphCodec.Types.TypeId

/-!
# The generation registry

A registry records every type that needs a codec of its own.  A type is registered before its
dependencies are visited, so a cycle that leads back to it stops at the registry; it gets its place
in the generation order when all its dependencies have been visited.  Then its plan is built, and
its record goes from queued to in progress to complete.
-/

namespace GraphCodec

/-- How far the codec of a type is. -/
inductive Progress where
  | queued
  | inProgress
  | complete
deriving DecidableEq, Repr

/-- The word for a progress. -/
def Progress.name : Progress → String
  | .queued => "Queued"
  | .inProgress => "InProgress"
  | .complete => "Complete"

/-- A type that needs a codec of its own. -/
structure CodecRecord where
  type : TypeId
  typeName : String
  /-- The identifier of the codec. -/
  identity : String
  progress : Progress
deriving DecidableEq, Repr

/-- What a registry refuses. -/
inductive RegistryError where
  | unregistered (id : TypeId)
  | invalidTransition (typeName : String) (source target : Progress)
deriving DecidableEq, Repr

/-- The message of an error. -/
def RegistryError.message : RegistryError → String
  | unregistered id => "type " ++ id.text ++ " is not registered"
  | invalidTransition typeName source target =>
    "`" ++ typeName ++ "` cannot move from " ++ source.name ++ " to " ++ target.name

/-- The types that need codecs of their own. -/
structure Registry where
  /-- In the order in which they were registered. -/
  records : List CodecRecord
  /-- The types whose dependencies have been visited, in generation order. -/
  order : List TypeId
deriving DecidableEq, Repr

namespace Registry

/-- A registry without types. -/
def empty : Registry := ⟨[], []⟩

/-- The record of a type, if it is registered. -/
def record? (r : Registry) (id : TypeId) : Option CodecRecord :=
  r.records.find? (·.type = id)

/-- Whether a type is registered. -/
def contains (r : Registry) (id : TypeId) : Bool := (r.record? id).isSome

/-- Whether a registered type has an identity. -/
def hasIdentity (r : Registry) (identity : String) : Bool :=
  r.records.any (·.identity = identity)

/-- Registers a type, and says whether it was not registered before. -/
def register (r : Registry) (id : TypeId) (typeName identity : String) : Bool × Registry :=
  if r.contains id then (false, r)
  else (true, { r with records := r.records ++ [⟨id, typeName, identity, .queued⟩] })

/-- Registering a type adds that type and no other. -/
theorem contains_register {r : Registry} {id x : TypeId} {typeName identity : String} :
    (r.register id typeName identity).2.contains x = (x = id || r.contains x) := by
  unfold register
  split
  -- The type is registered already, and nothing changes.
  · rename_i h
    by_cases hx : x = id <;> simp_all
  -- A new record is appended at the end, so a search for another type passes it.
  · by_cases hx : x = id
    · subst hx
      simp_all [contains, record?, List.find?_append]
    · have : id ≠ x := Ne.symm hx
      simp [contains, record?, List.find?_append, hx, this]

/-- The identities that a type can get when its own is taken: a number is put in front of the
suffix.  There is one more of them than registered types, so one of them is free. -/
def numberedIdentities (r : Registry) (typeName suffix : String) : List String :=
  (List.range (r.records.length + 1)).map fun n =>
    codecIdentity typeName "" ++ "_" ++ Decimal.natText (n + 2) ++ suffix

/-- An identity for a type that no registered type has. -/
def freshIdentity (r : Registry) (typeName suffix : String) : String :=
  let identity := codecIdentity typeName suffix
  if r.hasIdentity identity then
    ((r.numberedIdentities typeName suffix).find? fun i => !r.hasIdentity i).getD identity
  else identity

/-- Gives a type its place in the generation order, unless it has one. -/
def finish (r : Registry) (id : TypeId) : Except RegistryError Registry :=
  if r.contains id then
    .ok (if r.order.contains id then r else { r with order := r.order ++ [id] })
  else .error (.unregistered id)

/-- Finishing a type does not change which types are registered. -/
theorem contains_finish {r s : Registry} {id x : TypeId} (h : r.finish id = .ok s) :
    s.contains x = r.contains x := by
  unfold finish at h
  split at h
  · simp only [Except.ok.injEq] at h
    subst h
    split <;> rfl
  · contradiction

/-- Moves the record of a type from one progress to another. -/
def move (r : Registry) (id : TypeId) (source target : Progress) :
    Except RegistryError Registry :=
  match r.record? id with
  | none => .error (.unregistered id)
  | some record =>
    if record.progress = source then
      .ok { r with
        records := r.records.map fun c =>
          if c.type = id then { c with progress := target } else c }
    else .error (.invalidTransition record.typeName record.progress target)

/-- The plan of a type is being built. -/
def start (r : Registry) (id : TypeId) : Except RegistryError Registry :=
  r.move id .queued .inProgress

/-- The plan of a type has been built. -/
def complete (r : Registry) (id : TypeId) : Except RegistryError Registry :=
  r.move id .inProgress .complete

/-- Whether the plans of all types have been built. -/
def isComplete (r : Registry) : Bool := r.records.all (·.progress = .complete)

end Registry

end GraphCodec
