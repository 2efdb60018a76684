import GraphCodec.Proofs.Generation.Identities
import GraphCodec.Proofs.Generation.Planning

/-!
# Calls to a registry

`Registry.Advances` says all that a call can do to a registry: nothing, or a new record behind the
others, or a new place in the order, or one step of a plan (`Registry.Regular.advances_next`).
From it follow, call by call and then over all calls, that a registry stays regular, that its
records and its order only grow (`Registry.Regular.extends_after`), and that its records stand in
the order of registration (`Registry.types_run`).
-/

namespace GraphCodec

/-- What can be asked of a registry, besides looking things up. -/
inductive RegistryCall where
  | register (id : TypeId) (typeName identity : String)
  | finish (id : TypeId)
  | start (id : TypeId)
  | complete (id : TypeId)

/-- The type that a call asks to register. -/
def RegistryCall.registered? : RegistryCall → Option TypeId
  | register id _ _ => some id
  | _ => none

/-- One step of a plan on its way. -/
inductive Progress.Next : Progress → Progress → Prop where
  | start : Next .queued .inProgress
  | complete : Next .inProgress .complete

/-- A plan that has been built has nowhere to go. -/
theorem Progress.eq_complete_of_moved {target : Progress}
    (h : Relation.ReflTransGen Next complete target) : target = complete := by
  induction h with
  | refl => rfl
  | tail _ hnext ih =>
    subst ih
    cases hnext

namespace Registry

variable {r r' : Registry} {id x : TypeId} {source target : Progress} {call : RegistryCall}
  {calls : List RegistryCall}

/-- Carries out a call.  One that is not refused says whether it was of any use. -/
def apply (r : Registry) : RegistryCall → Except RegistryError (Bool × Registry)
  | .register id typeName identity => .ok (r.register id typeName identity)
  | .finish id => (r.finish id).map (true, ·)
  | .start id => (r.start id).map (true, ·)
  | .complete id => (r.complete id).map (true, ·)

/-- A call that is of no use changes nothing. -/
theorem eq_of_apply (h : r.apply call = .ok (false, r')) : r' = r := by
  cases call with
  | register id typeName identity =>
    simp only [apply, register, Except.ok.injEq] at h
    -- A registration is of no use where the type is registered already.
    split at h
    · cases h
      rfl
    · cases h
  | finish id | start id | complete id =>
    -- Other calls are refused if they do nothing.
    obtain ⟨_, _, heq⟩ := Except.map_eq_ok.1 h
    cases heq

/-- The registry after a call, which is the same if the call is refused. -/
def next (r : Registry) (call : RegistryCall) : Registry :=
  match r.apply call with
  | .ok (_, r') => r'
  | .error _ => r

/-- The registry after some calls. -/
def after (r : Registry) (calls : List RegistryCall) : Registry := calls.foldl next r

/-- The registry after some calls, beginning with an empty one. -/
def run (calls : List RegistryCall) : Registry := empty.after calls

/-- Calls in a row are made one after another. -/
theorem after_append (r : Registry) (calls calls' : List RegistryCall) :
    r.after (calls ++ calls') = (r.after calls).after calls' :=
  List.foldl_append

/-- Further calls are made on what calls have left. -/
theorem run_append (calls calls' : List RegistryCall) :
    run (calls ++ calls') = (run calls).after calls' :=
  after_append empty calls calls'

/-- The types that are registered. -/
def types (r : Registry) : List TypeId := r.records.map CodecRecord.type

theorem mem_types_iff : id ∈ r.types ↔ r.contains id := contains_iff_mem.symm

/-- Sets the progress of a type. -/
def setProgress (r : Registry) (id : TypeId) (target : Progress) : Registry :=
  { r with records := r.records.map fun c =>
      if c.type = id then { c with progress := target } else c }

/-- Setting a progress keeps what else there is in records. -/
theorem map_setProgress {β : Type} {read : CodecRecord → β}
    (hread : ∀ c p, read { c with progress := p } = read c) (r : Registry) (id : TypeId)
    (target : Progress) : (r.setProgress id target).records.map read = r.records.map read := by
  rw [setProgress, List.map_map]
  refine List.map_congr_left fun c _ => ?_
  rw [Function.comp_apply]
  -- The record of the type has another progress only, and any other stays.
  split
  · exact hread c target
  · rfl

/-- Setting a progress keeps the types. -/
theorem types_setProgress (r : Registry) (id : TypeId) (target : Progress) :
    (r.setProgress id target).types = r.types :=
  map_setProgress (fun _ _ => rfl) r id target

/-- A move that goes well sets the progress of a record that was at its source. -/
private theorem move_eq_ok (h : r.move id source target = .ok r') :
    r' = r.setProgress id target ∧ ∃ c, r.record? id = some c ∧ c.progress = source := by
  unfold move at h
  split at h
  · cases h
  case h_2 c hc =>
    split at h
    · cases h
      exact ⟨rfl, c, hc, ‹_›⟩
    · cases h

/-! ### What a call does -/

/-- A registry that has one record for each type, and places for some of these types in the
order. -/
structure Regular (r : Registry) : Prop where
  types_nodup : r.types.Nodup
  order_nodup : r.order.Nodup
  registered : ∀ id ∈ r.order, r.contains id

theorem regular_empty : empty.Regular := ⟨List.nodup_nil, List.nodup_nil, nofun⟩

/-- In a regular registry the record of a type is the only one of that type. -/
theorem Regular.record?_iff (h : r.Regular) {c : CodecRecord} :
    r.record? id = some c ↔ c ∈ r.records ∧ c.type = id := by
  constructor
  · exact fun hc => ⟨List.mem_of_find?_eq_some hc, record?_type hc⟩
  · rintro ⟨hc, rfl⟩
    obtain ⟨d, hd⟩ := Option.isSome_iff_exists.1 (mem_types_iff.1 (List.mem_map_of_mem hc))
    have hmem := List.mem_of_find?_eq_some hd
    rw [hd, List.inj_on_of_nodup_map h.types_nodup hmem hc (record?_type hd)]

/-- What a call can do to a registry. -/
inductive Advances (r : Registry) : RegistryCall → Registry → Prop where
  | same (call : RegistryCall) (hcall : ∀ id ∈ call.registered?, r.contains id) :
    Advances r call r
  | registered (id : TypeId) (typeName identity : String) (hnew : r.contains id = false) :
    Advances r (.register id typeName identity)
      { r with records := r.records ++ [⟨id, typeName, identity, .queued⟩] }
  | finished (id : TypeId) (hid : r.contains id) (hnew : id ∉ r.order) :
    Advances r (.finish id) { r with order := r.order ++ [id] }
  | moved (call : RegistryCall) (hcall : call.registered? = none) (id : TypeId)
    (source target : Progress) (hnext : source.Next target)
    (hid : ∀ c ∈ r.records, c.type = id → c.progress = source) :
    Advances r call (r.setProgress id target)

/-- A move along one step advances a regular registry. -/
private theorem Regular.advances_move (h : r.Regular) (hcall : call.registered? = none)
    (hnext : source.Next target) (hmove : r.move id source target = .ok r') :
    r.Advances call r' := by
  obtain ⟨rfl, c, hc, hsource⟩ := move_eq_ok hmove
  -- All records of the type are the one that was found.
  refine .moved call hcall id source target hnext fun d hd hid => ?_
  rw [h.record?_iff.2 ⟨hd, hid⟩, Option.some.injEq] at hc
  rw [hc, hsource]

/-- A call that registers nothing does what it does if it is not refused. -/
private theorem advances_of_apply {x : Except RegistryError Registry}
    (hcall : call.registered? = none)
    (happly : r.apply call = x.map (true, ·)) (h : ∀ r', x = .ok r' → r.Advances call r') :
    r.Advances call (r.next call) := by
  unfold next
  rw [happly]
  cases x with
  | error e => exact .same call (by simp [hcall])
  | ok r' => exact h r' rfl

/-- Every call advances a regular registry. -/
theorem Regular.advances_next (h : r.Regular) (call : RegistryCall) :
    r.Advances call (r.next call) := by
  -- One case for each kind of call, and each may be of no use.
  cases call with
  | register id typeName identity =>
    simp only [next, apply, register]
    cases hid : r.contains id with
    | true => exact .same _ fun x hx => by cases hx; exact hid
    | false => exact .registered id typeName identity hid
  -- A type is finished if it is registered, unless it has its place already.
  | finish id =>
    refine advances_of_apply rfl rfl fun r' hfinish => ?_
    unfold finish at hfinish
    split at hfinish
    case isTrue hid =>
      cases hfinish
      split
      · exact .same _ nofun
      case isFalse hnew => exact .finished id hid (by simpa using hnew)
    · cases hfinish
  | start id => exact advances_of_apply rfl rfl fun r' hmove => h.advances_move rfl .start hmove
  | complete id =>
    exact advances_of_apply rfl rfl fun r' hmove => h.advances_move rfl .complete hmove

/-- A new type comes behind the others, and the types do not change in any other way. -/
theorem Advances.types_eq (h : r.Advances call r') :
    r'.types = r.types ++ call.registered?.toList.removeAll r.types := by
  cases h with
  | same _ hcall =>
    -- The type is registered already.
    have hnone : call.registered?.toList.removeAll r.types = [] := by
      refine List.filter_eq_nil_iff.2 fun id hid => ?_
      simpa using mem_types_iff.2 (hcall id (by simpa using hid))
    rw [hnone, List.append_nil]
  | registered id typeName identity hnew =>
    -- A new type is not removed.
    have hid : id ∉ r.types := fun hmem => by simp [mem_types_iff.1 hmem] at hnew
    have hone : [id].removeAll r.types = [id] := List.filter_eq_self.2 fun x hx => by
      simpa [List.mem_singleton.1 hx] using hid
    rw [RegistryCall.registered?, Option.toList_some, hone, types, List.map_append]
    rfl
  | finished id _ _ => simp [types, List.removeAll, RegistryCall.registered?]
  | moved _ hcall id source target _ _ =>
    rw [types_setProgress, hcall]
    simp [List.removeAll]

/-- The types that are registered stay so. -/
private theorem Advances.contains (h : r.Advances call r') (hx : r.contains x) : r'.contains x :=
  mem_types_iff.1 (h.types_eq ▸ List.mem_append_left _ (mem_types_iff.2 hx))

/-- A record of a new type is the one that the call asks for, and its plan waits to be built. -/
theorem Advances.new (h : r.Advances call r') {c : CodecRecord} (hc : c ∈ r'.records)
    (hnew : c.type ∉ r.types) :
    call = .register c.type c.typeName c.identity ∧ c.progress = .queued := by
  have hold : c.type ∈ r'.types := List.mem_map_of_mem hc
  cases h with
  -- Only a registration brings a new type.
  | same _ _ => exact absurd hold hnew
  | registered id typeName identity _ =>
    rcases List.mem_append.1 hc with hc | hc
    · exact absurd (List.mem_map_of_mem hc) hnew
    · rw [List.mem_singleton.1 hc]
      exact ⟨rfl, rfl⟩
  | finished _ _ _ => exact absurd hold hnew
  | moved _ _ id source target _ _ => exact absurd (types_setProgress r id target ▸ hold) hnew

/-- A registry stays regular as it advances. -/
theorem Regular.advances (h : r.Regular) (hr : r.Advances call r') : r'.Regular where
  types_nodup := by
    cases hr with
    | same _ _ => exact h.types_nodup
    -- A new type differs from those that are registered.
    | registered id _ _ hnew =>
      rw [types, List.map_append]
      exact List.concat_eq_append ▸ h.types_nodup.concat (contains_eq_false.1 hnew)
    | finished _ _ _ => exact h.types_nodup
    | moved _ _ id source target _ _ => exact types_setProgress r id target ▸ h.types_nodup
  order_nodup := by
    cases hr with
    | same _ _ => exact h.order_nodup
    | registered _ _ _ _ => exact h.order_nodup
    | finished id _ hnew => exact List.concat_eq_append ▸ h.order_nodup.concat hnew
    | moved _ _ _ _ _ _ _ => exact h.order_nodup
  registered := by
    intro x hx
    -- Types stay registered, so only a new place in the order is of interest.
    have hall : x ∈ r.order ∨ r.contains x := by
      cases hr with
      | same _ _ => exact Or.inl hx
      | registered _ _ _ _ => exact Or.inl hx
      | finished id hid _ =>
        rcases List.mem_append.1 hx with hx | hx
        · exact Or.inl hx
        · exact Or.inr (List.mem_singleton.1 hx ▸ hid)
      | moved _ _ _ _ _ _ _ => exact Or.inl hx
    exact hr.contains (hall.elim (h.registered x) id)

/-! ### What calls do -/

/-- A registry stays regular whatever is called. -/
theorem Regular.after (h : r.Regular) (calls : List RegistryCall) : (r.after calls).Regular := by
  induction calls generalizing r with
  | nil => exact h
  | cons call calls ih => exact ih (h.advances (h.advances_next call))

/-- The registry is regular after any calls. -/
theorem regular_run (calls : List RegistryCall) : (run calls).Regular := regular_empty.after calls

/-- The records stand in the order in which their types were registered for the first time. -/
theorem types_run (calls : List RegistryCall) :
    (run calls).types = (calls.filterMap RegistryCall.registered?).eraseDups := by
  induction calls using List.reverseRecOn with
  | nil => rfl
  | append_singleton calls call ih =>
    have hadvances := (regular_run calls).advances_next call
    rw [run_append]
    show ((run calls).next call).types = _
    -- A call asks to register one type at most, so what it adds has no repetitions of its own.
    have hone : ∀ kept : TypeId → Bool, (call.registered?.toList.filter kept).eraseDups =
        call.registered?.toList.filter kept := by
      intro kept
      cases call.registered? with
      | none => rfl
      | some id =>
        rw [Option.toList_some, List.filter_singleton]
        cases kept id <;> rfl
    -- The last call adds a type unless it is among those before.
    have hlast : [call].filterMap RegistryCall.registered? = call.registered?.toList := by
      cases h : call.registered? <;> simp [h]
    rw [hadvances.types_eq, ih, List.filterMap_append, List.eraseDups_append, hlast]
    simp [List.removeAll, hone]

/-- How a registry has grown: its records stand where they stood, their names and identities are the
same and their plans have moved on, and its order goes on. -/
structure Extends (r : Registry) (moves : Progress → Progress → Prop) (r' : Registry) : Prop where
  records : ∀ (i : Nat) (c : CodecRecord), r.records[i]? = some c →
    ∃ target, moves c.progress target ∧ r'.records[i]? = some { c with progress := target }
  order : r.order <+: r'.order

/-- As a registry advances, its records and its order only grow. -/
theorem Advances.extends (h : r.Advances call r') :
    r.Extends (Relation.ReflGen Progress.Next) r' := by
  cases h with
  | same _ _ => exact ⟨fun _ c hc => ⟨c.progress, .refl, hc⟩, List.prefix_rfl⟩
  -- The records from before stand in front.
  | registered _ _ _ _ =>
    refine ⟨fun i c hc => ⟨c.progress, .refl, ?_⟩, List.prefix_rfl⟩
    rw [List.getElem?_append_left (List.getElem?_eq_some_iff.1 hc).1, hc]
  | finished _ _ _ => exact ⟨fun _ c hc => ⟨c.progress, .refl, hc⟩, List.prefix_append _ _⟩
  | moved _ _ id source target hnext hid =>
    refine ⟨fun i c hc => ?_, List.prefix_rfl⟩
    rw [setProgress, List.getElem?_map, hc, Option.map_some]
    -- The record that moves takes one step, and the others stay.
    by_cases htype : c.type = id
    · refine ⟨target, .single ?_, by rw [if_pos htype]⟩
      rwa [hid c (List.mem_of_getElem? hc) htype]
    · exact ⟨c.progress, .refl, by rw [if_neg htype]⟩

/-- Whatever is called, the records and the order of a registry only grow. -/
theorem Regular.extends_after (h : r.Regular) (calls : List RegistryCall) :
    r.Extends (Relation.ReflTransGen Progress.Next) (r.after calls) := by
  induction calls generalizing r with
  | nil => exact ⟨fun _ c hc => ⟨c.progress, .refl, hc⟩, List.prefix_rfl⟩
  | cons call calls ih =>
    -- The first call and the others each extend the registry, and extensions combine.
    have hadvances := h.advances_next call
    have hfirst := hadvances.extends
    have hrest := ih (h.advances hadvances)
    refine ⟨fun i c hc => ?_, hfirst.order.trans hrest.order⟩
    obtain ⟨p, hp, hc'⟩ := hfirst.records i c hc
    obtain ⟨p', hp', hc''⟩ := hrest.records i _ hc'
    exact ⟨p', hp.to_reflTransGen.trans hp', hc''⟩

end Registry

end GraphCodec
