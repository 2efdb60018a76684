import GraphCodec.Proofs.Generation.RegistryCalls
import Mathlib.Data.Finset.Insert

/-!
# Registries with an index

A `Registry` looks for the record of a type, and its order is made of types.  An `IndexedRegistry`
has an index that tells the place of each record; its order is made of places, and it remembers
which places are in the order and which identities it has handed out.  All of these are changed one
after another, and looking at a place where no record stands has no outcome.

`IndexedRegistry.of` is the indexed form of a registry.  Every call has an outcome, and answers and
does the same to both (`IndexedRegistry.call_of`), so after any calls the indexed registry is the
indexed form of the plain one (`IndexedRegistry.run_eq`), and its parts fit together
(`IndexedRegistry.sound_of`).
-/

namespace GraphCodec

/-- A registry that finds records by an index and keeps places in place of types. -/
structure IndexedRegistry where
  /-- In the order in which they were registered. -/
  records : List CodecRecord
  /-- The place of the record of each type. -/
  index : List (TypeId × Nat)
  /-- The places of the types whose dependencies have been visited, in generation order. -/
  order : List Nat
  /-- The places that are in the order. -/
  ordered : Finset Nat
  /-- The identities that have been handed out. -/
  identities : Finset String

namespace IndexedRegistry

/-- A registry without types. -/
def empty : IndexedRegistry := ⟨[], [], [], ∅, ∅⟩

/-- Registers a type, and says whether it was not registered before. -/
def register (s : IndexedRegistry) (id : TypeId) (typeName identity : String) :
    Bool × IndexedRegistry :=
  if (s.index.lookup id).isSome then (false, s)
  else
    (true, { s with
      identities := insert identity s.identities
      index := s.index ++ [(id, s.records.length)]
      records := s.records ++ [⟨id, typeName, identity, .queued⟩] })

/-- The place of the record of a type. -/
def position (s : IndexedRegistry) (id : TypeId) : Except RegistryError Nat :=
  match s.index.lookup id with
  | some i => .ok i
  | none => .error (.unregistered id)

/-- Gives a type its place in the generation order, unless it has one. -/
def finish (s : IndexedRegistry) (id : TypeId) : Except RegistryError Bool × IndexedRegistry :=
  match s.position id with
  | .error e => (.error e, s)
  | .ok i =>
    (.ok true,
      if i ∈ s.ordered then s
      else { s with order := s.order ++ [i], ordered := insert i s.ordered })

/-- Moves the record of a type from one progress to another.  This has no outcome if there is no
record at the place that the index tells. -/
def move (s : IndexedRegistry) (id : TypeId) (source target : Progress) :
    Option (Except RegistryError Bool × IndexedRegistry) :=
  match s.position id with
  | .error e => some (.error e, s)
  | .ok i =>
    s.records[i]?.map fun c =>
      if c.progress = source then
        (.ok true, { s with records := s.records.set i { c with progress := target } })
      else (.error (.invalidTransition c.typeName c.progress target), s)

/-- Carries out a call: what it answers, and the registry after it. -/
def call (s : IndexedRegistry) : RegistryCall →
    Option (Except RegistryError Bool × IndexedRegistry)
  | .register id typeName identity =>
    let (isNew, s') := s.register id typeName identity
    some (.ok isNew, s')
  | .finish id => some (s.finish id)
  | .start id => s.move id .queued .inProgress
  | .complete id => s.move id .inProgress .complete

/-- The registry after some calls, beginning with an empty one. -/
def run (calls : List RegistryCall) : Option IndexedRegistry :=
  calls.foldlM (fun s call => (s.call call).map Prod.snd) empty

/-- The types at the places of the order.  There is no outcome if there is no record at one of the
places. -/
def generationOrder (s : IndexedRegistry) : Option (List TypeId) :=
  s.order.mapM fun i => s.records[i]?.map CodecRecord.type

/-- The indexed form of a registry. -/
def of (r : Registry) : IndexedRegistry where
  records := r.records
  index := r.types.zipIdx
  order := r.order.map r.types.idxOf
  ordered := (r.order.map r.types.idxOf).toFinset
  identities := (r.records.map CodecRecord.identity).toFinset

/-! ### Places -/

variable {r : Registry} {id : TypeId}

/-- The places of different types are counted from a start on. -/
private theorem lookup_zipIdx (ids : List TypeId) (id : TypeId) (start : Nat) :
    (ids.zipIdx start).lookup id =
      if id ∈ ids then some (start + ids.idxOf id) else none := by
  induction ids generalizing start with
  | nil => rfl
  -- The type is the first one, or it is looked for behind it.
  | cons x ids ih =>
    rw [List.zipIdx_cons, List.lookup_cons]
    by_cases hx : x = id
    · simp [hx]
    · have hne : (id == x) = false := by simpa using Ne.symm hx
      simp only [hne, ih, List.mem_cons, Ne.symm hx, false_or]
      congr 2
      rw [List.idxOf_cons_ne _ hx]
      omega

/-- The index has the places of the types that are registered. -/
theorem lookup_of (r : Registry) (id : TypeId) :
    (of r).index.lookup id = if r.contains id then some (r.types.idxOf id) else none := by
  show r.types.zipIdx.lookup id = _
  simp only [lookup_zipIdx, Nat.zero_add, Registry.mem_types_iff]

/-- The index leads to the record of a type. -/
theorem getElem?_idxOf (r : Registry) (id : TypeId) :
    r.records[r.types.idxOf id]? = r.record? id := by
  unfold Registry.record? Registry.types
  -- The record is the first one, or it stands further behind.
  induction r.records with
  | nil => rfl
  | cons c records ih =>
    by_cases hc : c.type = id
    · simp [hc]
    · rw [List.map_cons, List.idxOf_cons_ne _ hc, List.getElem?_cons_succ, ih]
      simp [hc]

/-- A place belongs to a type if the type is that of the record there. -/
theorem lookup_eq_some_iff (h : r.Regular) {i : Nat} :
    (of r).index.lookup id = some i ↔ r.records[i]?.map CodecRecord.type = some id := by
  have htypes : r.records[i]?.map CodecRecord.type = r.types[i]? := by
    rw [Registry.types, List.getElem?_map]
  rw [htypes, lookup_of]
  constructor
  -- From left to right a place in the index is that of the type.
  · intro hlookup
    split at hlookup
    case isTrue hid =>
      cases hlookup
      exact List.getElem?_idxOf (Registry.mem_types_iff.2 hid)
    · cases hlookup
  -- Conversely no other place has a record of the type.
  · intro hi
    obtain ⟨hlt, heq⟩ := List.getElem?_eq_some_iff.1 hi
    have hid : r.contains id := Registry.mem_types_iff.1 (heq ▸ List.getElem_mem hlt)
    rw [if_pos hid, ← heq, h.types_nodup.idxOf_getElem i hlt]

/-- Changing the record at the place of a type changes the record of this type only. -/
private theorem set_idxOf (h : r.Regular) {c : CodecRecord} (hc : r.record? id = some c)
    (target : Progress) :
    r.records.set (r.types.idxOf id) { c with progress := target } =
      (r.setProgress id target).records := by
  -- The place of the type is that of its record.
  have hplace : r.records[r.types.idxOf id]? = some c := by rw [getElem?_idxOf, hc]
  refine List.ext_getElem? fun i => ?_
  rw [List.getElem?_set, Registry.setProgress, List.getElem?_map]
  split
  case isTrue hi =>
    subst hi
    rw [if_pos (List.getElem?_eq_some_iff.1 hplace).1, hplace, Option.map_some,
      if_pos (Registry.record?_type hc)]
  case isFalse hi =>
    cases hd : r.records[i]? with
    | none => rfl
    | some d =>
      -- A second record of the type would stand at the place of the first.
      have hid : d.type ≠ id := by
        rintro rfl
        have hlookup := (lookup_eq_some_iff h).2 (by rw [hd, Option.map_some] : _ = some d.type)
        rw [lookup_of] at hlookup
        split at hlookup
        · exact hi (Option.some.inj hlookup)
        · cases hlookup
      rw [Option.map_some, if_neg hid]

/-! ### The same calls -/

/-- A registered type has a place, and any other is refused. -/
private theorem position_of (r : Registry) (id : TypeId) :
    (of r).position id =
      if r.contains id then .ok (r.types.idxOf id) else .error (.unregistered id) := by
  rw [position, lookup_of]
  cases r.contains id <;> rfl

/-- The place of a type is in the order exactly if the type is. -/
private theorem mem_ordered_of (h : r.Regular) :
    r.types.idxOf id ∈ (of r).ordered ↔ id ∈ r.order := by
  simp only [of, List.mem_toFinset, List.mem_map]
  constructor
  · rintro ⟨x, hx, heq⟩
    rwa [← (List.idxOf_inj (Registry.mem_types_iff.2 (h.registered x hx))).1 heq]
  · exact fun hmem => ⟨id, hmem, rfl⟩

/-- What a call to a plain registry answers, and the indexed form of the registry after it. -/
def outcome (r : Registry) :
    Except RegistryError (Bool × Registry) → Except RegistryError Bool × IndexedRegistry
  | .ok (answer, r') => (.ok answer, of r')
  | .error e => (.error e, of r)

/-- The outcome of a call is the indexed form of what the call leaves. -/
private theorem outcome_snd (r : Registry) (call : RegistryCall) :
    (outcome r (r.apply call)).2 = of (r.next call) := by
  unfold Registry.next
  rcases r.apply call with e | ⟨answer, r'⟩ <;> rfl

/-- A new record comes behind the others, so the places stay. -/
private theorem of_registered (h : r.Regular) (c : CodecRecord) :
    of { r with records := r.records ++ [c] } =
      { of r with
        identities := insert c.identity (of r).identities
        index := (of r).index ++ [(c.type, r.records.length)]
        records := r.records ++ [c] } := by
  have htypes : Registry.types { r with records := r.records ++ [c] } = r.types ++ [c.type] :=
    List.map_append
  have hplaces : r.order.map (r.types ++ [c.type]).idxOf = r.order.map r.types.idxOf :=
    List.map_congr_left fun x hx =>
      List.idxOf_append_of_mem (Registry.mem_types_iff.2 (h.registered x hx))
  unfold of
  rw [htypes, hplaces]
  simp [List.zipIdx_append, Registry.types]

/-- A change of progress changes nothing but the records. -/
private theorem of_setProgress (r : Registry) (id : TypeId) (target : Progress) :
    of (r.setProgress id target) =
      { of r with records := (r.setProgress id target).records } := by
  unfold of
  rw [Registry.types_setProgress, Registry.map_setProgress fun _ _ => rfl]
  rfl

/-- Registering a type does the same with an index. -/
private theorem register_of (h : r.Regular) (id : TypeId) (typeName identity : String) :
    (of r).register id typeName identity =
      ((r.register id typeName identity).1, of (r.register id typeName identity).2) := by
  unfold register Registry.register
  rw [lookup_of]
  -- A type that is registered already changes nothing, and a new one comes behind the others.
  cases hid : r.contains id with
  | true => rfl
  | false => exact congrArg (true, ·) (of_registered h ⟨id, typeName, identity, .queued⟩).symm

/-- Finishing a type does the same with an index. -/
private theorem finish_of (h : r.Regular) (id : TypeId) :
    (of r).finish id = outcome r (r.apply (.finish id)) := by
  rw [Registry.apply, finish, position_of, Registry.finish]
  cases r.contains id with
  | false => rfl
  | true =>
    simp only [if_true, mem_ordered_of h, List.contains_iff_mem, Except.map, outcome]
    -- The type has its place already, or it gets one.
    split
    · rfl
    · simp [of, Registry.types]

/-- Moving the record of a type does the same with an index. -/
private theorem move_of (h : r.Regular) (id : TypeId) (source target : Progress) :
    (of r).move id source target =
      some (outcome r ((r.move id source target).map (true, ·))) := by
  rw [move, position_of, Registry.move, Registry.contains]
  -- Without a record the move is refused.
  cases hc : r.record? id with
  | none => rfl
  | some c =>
    -- The index leads to the record.
    have hplace : (of r).records[r.types.idxOf id]? = some c := by
      rw [show (of r).records = r.records from rfl, getElem?_idxOf, hc]
    simp only [Option.isSome_some, if_true, hplace, Option.map_some]
    -- The record is at the source of the move, or the move is refused.
    split
    · show _ = some (Except.ok true, of (r.setProgress id target))
      rw [of_setProgress, ← set_idxOf h hc target]
      rfl
    · rfl

/-- Every call answers and does the same with an index. -/
theorem call_of (h : r.Regular) (call : RegistryCall) :
    (of r).call call = some (outcome r (r.apply call)) := by
  -- One lemma for each kind of call; starting and completing are both moves.
  cases call with
  | register id typeName identity => rw [call, register_of h]; rfl
  | finish id => exact congrArg some (finish_of h id)
  | start id => exact move_of h id .queued .inProgress
  | complete id => exact move_of h id .inProgress .complete

/-- After any calls an indexed registry is the indexed form of the plain one after these calls. -/
theorem run_eq (calls : List RegistryCall) : run calls = some (of (.run calls)) := by
  -- By induction on the calls; each of them finds a regular registry and leaves one behind.
  have hafter : ∀ r : Registry, r.Regular →
      calls.foldlM (fun s call => (s.call call).map Prod.snd) (of r) =
        some (of (r.after calls)) := by
    induction calls with
    | nil => exact fun r _ => rfl
    | cons call calls ih =>
      intro r h
      rw [List.foldlM_cons, call_of h, Option.map_some, outcome_snd]
      exact ih (r.next call) (h.advances (h.advances_next call))
  exact hafter .empty Registry.regular_empty

/-! ### Consistency -/

/-- The order is read back from its places. -/
private theorem generationOrder_of (h : r.Regular) : (of r).generationOrder = some r.order := by
  -- Each place leads to the record of its type.
  have hmap : ∀ ids : List TypeId, (∀ id ∈ ids, r.contains id) →
      (ids.map r.types.idxOf).mapM (fun i => r.records[i]?.map CodecRecord.type) = some ids := by
    intro ids hids
    induction ids with
    | nil => rfl
    | cons id ids ih =>
      obtain ⟨c, hc⟩ := Option.isSome_iff_exists.1 (hids id List.mem_cons_self)
      rw [List.map_cons, List.mapM_cons, getElem?_idxOf, hc,
        ih fun x hx => hids x (List.mem_cons_of_mem _ hx)]
      simp [Registry.record?_type hc]
  exact hmap r.order h.registered

/-- Whether the parts of a registry fit together. -/
structure Sound (s : IndexedRegistry) : Prop where
  lookup_iff : ∀ id i,
    s.index.lookup id = some i ↔ s.records[i]?.map CodecRecord.type = some id
  types_nodup : (s.records.map CodecRecord.type).Nodup
  identities : s.identities = (s.records.map CodecRecord.identity).toFinset
  ordered : s.ordered = s.order.toFinset
  order_nodup : s.order.Nodup
  generationOrder : ∃ ids, s.generationOrder = some ids ∧ ids.Nodup ∧
    ∀ id ∈ ids, (s.index.lookup id).isSome
  call : ∀ call, ∃ answer s', s.call call = some (answer, s') ∧ (answer ≠ .ok true → s' = s)

/-- The parts of the indexed form of a regular registry fit together. -/
theorem sound_of (h : r.Regular) : (of r).Sound where
  lookup_iff id i := lookup_eq_some_iff h
  types_nodup := h.types_nodup
  identities := rfl
  ordered := rfl
  order_nodup := by
    refine h.order_nodup.map_on fun x hx y _ heq => ?_
    exact (List.idxOf_inj (Registry.mem_types_iff.2 (h.registered x hx))).1 heq
  generationOrder := by
    refine ⟨r.order, generationOrder_of h, h.order_nodup, fun id hid => ?_⟩
    rw [lookup_of, if_pos (h.registered id hid)]
    rfl
  call call := by
    refine ⟨_, _, call_of h call, fun hanswer => ?_⟩
    -- Calls are refused, of no use, or neither; only the last kind changes something.
    rcases happly : r.apply call with e | ⟨_ | _, r'⟩
    · rfl
    · exact congrArg of (Registry.eq_of_apply happly)
    · exact absurd (by rw [happly]) hanswer

end IndexedRegistry

end GraphCodec
