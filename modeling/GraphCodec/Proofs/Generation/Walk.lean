import GraphCodec.Proofs.Generation.Reach

/-!
# What a walk does

The walk keeps an invariant between its agenda and its state (`WalkInvariant`): whatever the roots
and the registered classes ask for is either still on the agenda or settled, and everything on the
agenda is justified by something reachable.  When the agenda is empty all of it is settled.

So without errors the walk has registered exactly the enums and classes whose codecs write reachable
types (`WalkInvariant.contains_iff`), and there are no errors exactly when everything reachable is
supported (`WalkInvariant.hasErrors?_iff`).

The order of a walk depends on nothing but the agenda and what is registered, so for a graph that is
given it can be computed (`order_walk_of_orderWithin`).
-/

namespace GraphCodec

/-! ### Steps -/

namespace TypeGraph

variable {g : TypeGraph} {roots : List TypeId} {id : TypeId} {frames : List Frame}

/-- What a type asks for is asked for by a type inside it. -/
theorem exists_within_of_mem_typeSteps {step : WalkStep} (h : step ∈ g.typeSteps frames id) :
    ∃ q frames', g.Within id q ∧ (step ∈ g.keySteps frames' q ∨ step ∈ g.ownSteps frames' q) := by
  induction frames, id using typeSteps.induct g with
  | case1 frames id ih =>
    rw [typeSteps, List.mem_append, List.mem_append, List.mem_flatMap] at h
    rcases h with (h | ⟨p, _, h⟩) | h
    -- The step is for the keys, inside an argument, or of the type itself.
    · exact ⟨id, frames, .self id, Or.inl h⟩
    · obtain ⟨q, frames', hq, hstep⟩ := ih p h
      exact ⟨q, frames', .position p.2 hq, hstep⟩
    · exact ⟨id, frames, .self id, Or.inr h⟩

/-- What a type asks for on account of its keys is to report that there are none. -/
private theorem exists_of_mem_keySteps {step : WalkStep} (h : step ∈ g.keySteps frames id) :
    ∃ d : Diagnostic, step = .report d ∧ d.isError ∧ g.HasEmptyKeys id := by
  unfold keySteps at h
  split at h
  case h_1 key value hmap =>
    split at h
    case h_1 c hkey =>
      split at h
      case isTrue hlacks =>
        exact ⟨_, List.mem_singleton.1 h, rfl, key, value, c, hmap, hkey,
          -- Keys of any other type are not asked for.
          lacksInstances_iff.1 hlacks⟩
      case isFalse => cases h
    case h_2 => cases h
  case h_2 => cases h

/-- A type itself asks for the codec that writes its values to be entered, or reports that there is
none. -/
private theorem cases_of_mem_ownSteps {step : WalkStep} (h : step ∈ g.ownSteps frames id) :
    (∃ c, step = .enter frames c ∧ g.WrittenBy id c) ∨
      ∃ d : Diagnostic, step = .report d ∧ d.isError ∧ (g.classify id).isError := by
  unfold ownSteps at h
  split at h
  -- An enum or class is entered, and types without codecs are reported.
  case h_1 hc => exact Or.inl ⟨id, List.mem_singleton.1 h, Or.inl ⟨hc, rfl⟩⟩
  case h_2 c hc => exact Or.inl ⟨c, List.mem_singleton.1 h, Or.inr hc⟩
  case h_3 hc => exact Or.inr ⟨_, List.mem_singleton.1 h, rfl, by rw [hc]; rfl⟩
  case h_4 why hc => exact Or.inr ⟨_, List.mem_singleton.1 h, rfl, by rw [hc]; rfl⟩
  case h_5 => cases h

/-- A type asks for what writes a type inside it to be entered, or reports such a type. -/
theorem cases_of_mem_typeSteps {step : WalkStep} (h : step ∈ g.typeSteps frames id) :
    ∃ q, g.Within id q ∧ ((∃ frames' c, step = .enter frames' c ∧ g.WrittenBy q c) ∨
      ∃ d : Diagnostic, step = .report d ∧ d.isError ∧
        ((g.classify q).isError ∨ g.HasEmptyKeys q)) := by
  -- Its keys or the type itself ask for the step.
  obtain ⟨q, frames', hq, h | h⟩ := exists_within_of_mem_typeSteps h
  · obtain ⟨d, hstep, hd, hkeys⟩ := exists_of_mem_keySteps h
    exact ⟨q, hq, Or.inr ⟨d, hstep, hd, Or.inr hkeys⟩⟩
  · rcases cases_of_mem_ownSteps h with ⟨c, hstep, hc⟩ | ⟨d, hstep, hd, herror⟩
    · exact ⟨q, hq, Or.inl ⟨frames', c, hstep, hc⟩⟩
    · exact ⟨q, hq, Or.inr ⟨d, hstep, hd, Or.inl herror⟩⟩

/-- A root asks for what its type asks for, or reports that nothing is generated for it. -/
theorem cases_of_mem_rootSteps {root : TypeId} {step : WalkStep} (h : step ∈ g.rootSteps root) :
    step ∈ g.typeSteps [.root (g.name root)] root ∨
      ∃ d : Diagnostic, step = .report d ∧ d.isError ∧ ((g.classify root).isBuiltIn ∨
        ∃ c, g.classify root = .userClass c ∧ g.lacksInstances c) := by
  unfold rootSteps at h
  dsimp only at h
  split at h
  case isTrue hbuiltIn => exact Or.inr ⟨_, List.mem_singleton.1 h, rfl, Or.inl hbuiltIn⟩
  -- A root with a codec of its own is walked like any type, unless it lacks instances.
  case isFalse =>
    split at h
    case h_1 c hc =>
      split at h
      case isTrue hlacks => exact Or.inr ⟨_, List.mem_singleton.1 h, rfl, Or.inr ⟨c, hc, hlacks⟩⟩
      case isFalse => exact Or.inl h
    case h_2 => exact Or.inl h

/-- A type asks for the codec that writes its values. -/
theorem enter_mem_ownSteps {c : TypeId} (h : g.WrittenBy id c) :
    .enter frames c ∈ g.ownSteps frames id := by
  rcases h with ⟨henum, rfl⟩ | hclass
  · simp [ownSteps, henum]
  · simp [ownSteps, hclass]

/-- What a type inside a type asks for is part of what the type asks for. -/
theorem typeSteps_subset {q : TypeId} (h : g.Within id q) (frames : List Frame) :
    ∃ frames', g.typeSteps frames' q ⊆ g.typeSteps frames id := by
  induction h generalizing frames with
  | self id => exact ⟨frames, List.Subset.refl _⟩
  | @position id p q hp _ ih =>
    obtain ⟨frames', hsub⟩ := ih (frames ++ [.argument (g.name p)])
    -- The argument of the type asks for it, below one frame more.
    refine ⟨frames', fun step hstep => ?_⟩
    rw [typeSteps, List.mem_append, List.mem_append, List.mem_flatMap]
    exact Or.inl (Or.inr ⟨⟨p, hp⟩, List.mem_attach _ _, hsub hstep⟩)

/-- What a body asks for is what its types ask for. -/
theorem exists_of_mem_bodySteps {step : WalkStep} (h : step ∈ g.bodySteps frames id) :
    ∃ t ∈ g.bodyTypes id, ∃ frames', step ∈ g.typeSteps frames' t := by
  unfold bodySteps at h
  dsimp only at h
  rw [List.mem_append, List.mem_append] at h
  unfold bodyTypes
  -- The superclass, a subtype or the type of a field asks for it.
  rcases h with (h | h) | h
  · unfold superclassSteps at h
    split at h
    case isTrue hin =>
      obtain ⟨t, ht, hstep⟩ := List.mem_flatMap.1 h
      rw [if_pos hin]
      exact ⟨t, List.mem_append_left _ (List.mem_append_left _ ht), _, hstep⟩
    case isFalse => cases h
  · obtain ⟨t, ht, hstep⟩ := List.mem_flatMap.1 h
    exact ⟨t, List.mem_append_left _ (List.mem_append_right _ ht), _, hstep⟩
  · obtain ⟨f, hf, hstep⟩ := List.mem_flatMap.1 h
    exact ⟨f.type, List.mem_append_right _ (List.mem_map_of_mem hf), _, hstep⟩

/-- What the types of a body ask for is part of what the body asks for. -/
theorem typeSteps_subset_bodySteps {t : TypeId} (h : t ∈ g.bodyTypes id) (frames : List Frame) :
    ∃ frames', g.typeSteps frames' t ⊆ g.bodySteps frames id := by
  unfold bodyTypes at h
  unfold bodySteps
  dsimp only
  rw [List.mem_append, List.mem_append] at h
  -- By the part of the body that the type stands in.
  rcases h with (h | h) | h
  · split at h
    case isTrue hin =>
      refine ⟨frames ++ [.type (g.name id)], fun step hstep => ?_⟩
      rw [List.mem_append, List.mem_append, superclassSteps, if_pos hin]
      exact Or.inl (Or.inl (List.mem_flatMap.2 ⟨t, h, hstep⟩))
    case isFalse => cases h
  · refine ⟨frames ++ [.type (g.name id)], fun step hstep => ?_⟩
    rw [List.mem_append, List.mem_append]
    exact Or.inl (Or.inr (List.mem_flatMap.2 ⟨t, h, hstep⟩))
  · obtain ⟨f, hf, rfl⟩ := List.mem_map.1 h
    refine ⟨frames ++ [.type (g.name id)] ++ [.field (g.name id) f.name], fun step hstep => ?_⟩
    rw [List.mem_append, List.mem_append]
    exact Or.inr (List.mem_flatMap.2 ⟨f, hf, hstep⟩)

/-! ### Why a step is on an agenda -/

/-- Whether a step is due to something that can be reached from roots. -/
def Justified (g : TypeGraph) (roots : List TypeId) : WalkStep → Prop
  | .report d => d.isError ∧ ¬g.Supported roots
  | .enter _ id => ∃ t, g.Reach roots t ∧ g.WrittenBy t id
  | .leave _ => True

/-- What a reachable type asks for is justified. -/
theorem justified_of_mem_typeSteps (h : g.Reach roots id) {step : WalkStep}
    (hstep : step ∈ g.typeSteps frames id) : g.Justified roots step := by
  -- The step enters what writes a reachable type, or reports one that is not supported.
  obtain ⟨q, hq, ⟨frames', c, rfl, hc⟩ | ⟨d, rfl, hd, hwhy⟩⟩ := cases_of_mem_typeSteps hstep
  · exact ⟨q, h.within hq, hc⟩
  · refine ⟨hd, fun hs => ?_⟩
    rcases hwhy with herror | hkeys
    · rw [hs.not_error q (h.within hq)] at herror
      cases herror
    · exact hs.keys q (h.within hq) hkeys

/-- What a root asks for is justified. -/
private theorem justified_of_mem_rootSteps {root : TypeId} (h : root ∈ roots) {step : WalkStep}
    (hstep : step ∈ g.rootSteps root) : g.Justified roots step := by
  rcases cases_of_mem_rootSteps hstep with hstep | ⟨d, rfl, hd, hbuiltIn | ⟨c, hc, hlacks⟩⟩
  · exact justified_of_mem_typeSteps (.root h) hstep
  · refine ⟨hd, fun hs => ?_⟩
    rw [hs.not_builtIn root h] at hbuiltIn
    cases hbuiltIn
  · exact ⟨hd, fun hs => hs.root_instances root h c hc (lacksInstances_iff.1 hlacks)⟩

/-- What the body of an enum or class asks for is justified. -/
private theorem Consistent.justified_of_mem_bodySteps (hg : g.Consistent) {t : TypeId}
    (h : g.Reach roots t) (hid : g.WrittenBy t id) {step : WalkStep}
    (hstep : step ∈ g.bodySteps frames id) : g.Justified roots step := by
  obtain ⟨u, hu, frames', hstep⟩ := exists_of_mem_bodySteps hstep
  -- The body of an enum is empty.
  rcases hid with ⟨henum, rfl⟩ | hclass
  · rw [hg.bodyTypes_enum henum] at hu
    cases hu
  -- The types in the body of a class are reachable.
  · have hself := classify_userClass_self hclass
    exact justified_of_mem_typeSteps ((h.rawClass hclass).bodyType hself hu) hstep

end TypeGraph

/-! ### Queues of errors -/

namespace DiagnosticQueue

/-- Adding an error to a queue of errors leaves a queue with an error. -/
theorem hasErrors?_add {q : DiagnosticQueue} {d : Diagnostic}
    (hq : ∀ e ∈ q.diagnostics, e.isError) (hd : d.isError) :
    (q.add d).2.hasErrors?.isSome ∧ ∀ e ∈ (q.add d).2.diagnostics, e.isError := by
  unfold add
  split
  case isTrue hlimit =>
    -- The limit is reached, so there are errors already.
    have hreached : 0 < q.config.errorLimit ∧ q.config.errorLimit ≤ q.errorCount := by
      simpa [limitReached, hd] using hlimit
    refine ⟨?_, hq⟩
    show (if 0 < q.errorCount then some ErrorGuarantee.emitted else none).isSome
    rw [if_pos (by omega)]
    rfl
  case isFalse =>
    split
    case isTrue hrepeats =>
      -- The error that is repeated is in the queue.
      obtain ⟨e, he, _⟩ : ∃ e ∈ q.diagnostics, sameProblem d e := by
        simp only [repeats, Bool.and_eq_true, List.any_eq_true] at hrepeats
        exact hrepeats.2
      have hpos : 0 < q.errorCount := List.countP_pos_iff.2 ⟨e, he, hq e he⟩
      refine ⟨?_, hq⟩
      rw [hasErrors?, if_pos hpos]
      rfl
    -- The error is added, and is an error among the diagnostics.
    case isFalse =>
      have hall : ∀ e ∈ q.diagnostics ++ [d], e.isError := by
        intro e he
        rcases List.mem_append.1 he with he | he
        · exact hq e he
        · rw [List.mem_singleton.1 he]
          exact hd
      refine ⟨?_, hall⟩
      have hpos : 0 < (q.diagnostics ++ [d]).countP (·.isError) :=
        List.countP_pos_iff.2 ⟨d, by simp, hd⟩
      show (if 0 < (q.diagnostics ++ [d]).countP (·.isError) then _ else _ :
        Option ErrorGuarantee).isSome
      rw [if_pos hpos]
      rfl

end DiagnosticQueue

/-! ### Registration -/

namespace WalkState

variable {s : WalkState} {g : TypeGraph} {suffix : String} {id x : TypeId}

/-- Registering a type changes nothing else about what is registered. -/
theorem contains_register :
    (s.register g suffix id).registry.contains x = (x = id || s.registry.contains x) :=
  Registry.contains_register

/-- Registering a type leaves the order as it is. -/
theorem order_register : (s.register g suffix id).registry.order = s.registry.order := by
  show (s.registry.register _ _ _).2.order = _
  unfold Registry.register
  split <;> rfl

/-- Registering adds a queued record under the name of the type. -/
private theorem mem_records_register {r : CodecRecord}
    (h : r ∈ (s.register g suffix id).registry.records) :
    r ∈ s.registry.records ∨ r.type = id ∧ r.typeName = g.name id ∧ r.progress = .queued := by
  have h : r ∈ (s.registry.register id (g.name id) _).2.records := h
  unfold Registry.register at h
  -- The type was registered already, or it has the new record.
  split at h
  · exact Or.inl h
  · rcases List.mem_append.1 h with h | h
    · exact Or.inl h
    · rw [List.mem_singleton.1 h]
      exact Or.inr ⟨rfl, rfl, rfl⟩

/-- Leaving a type does not change what is registered. -/
theorem contains_leave : (s.leave id).registry.contains x = s.registry.contains x := by
  unfold leave
  split
  case h_1 registry h => exact Registry.contains_finish h
  case h_2 => rfl

/-- Leaving a type does not touch the queue. -/
theorem queue_leave : (s.leave id).queue = s.queue := by
  unfold leave
  split <;> rfl

/-- Leaving a type leaves the records as they are. -/
theorem records_leave : (s.leave id).registry.records = s.registry.records := by
  unfold leave
  split
  case h_1 registry h =>
    unfold Registry.finish at h
    split at h
    · cases h
      split <;> rfl
    · cases h
  case h_2 => rfl

/-- Leaving a registered type gives it its place in the order, once. -/
theorem order_leave (h : s.registry.contains id) :
    (s.leave id).registry.order =
      if id ∈ s.registry.order then s.registry.order else s.registry.order ++ [id] := by
  unfold leave Registry.finish
  rw [if_pos h]
  dsimp only
  -- The type has its place already, or it gets the last one.
  by_cases hmem : id ∈ s.registry.order
  · rw [if_pos hmem, if_pos (List.contains_iff_mem.2 hmem)]
  · rw [if_neg hmem, if_neg fun h => hmem (List.contains_iff_mem.1 h)]

/-- Leaving a type that is not registered changes nothing. -/
theorem leave_of_not_contains (h : s.registry.contains id = false) : s.leave id = s := by
  unfold leave Registry.finish
  rw [if_neg (by rw [h]; exact Bool.false_ne_true)]

/-- Whether what a step asks for has been done. -/
def Settles (s : WalkState) (g : TypeGraph) : WalkStep → Prop
  | .report d => d.isError → s.queue.hasErrors?.isSome
  | .enter _ id => id ∈ g.places → s.registry.contains id
  | .leave _ => True

/-- What has been done stays done. -/
theorem Settles.mono {s' : WalkState} {step : WalkStep} (h : s.Settles g step)
    (hcontains : ∀ x, s.registry.contains x → s'.registry.contains x)
    (herrors : s.queue.hasErrors?.isSome → s'.queue.hasErrors?.isSome) : s'.Settles g step := by
  cases step with
  | report d => exact fun hd => herrors (h hd)
  | enter frames id => exact fun hid => hcontains id (h hid)
  | leave id => trivial

end WalkState

/-! ### One step after another -/

section Steps

variable {g : TypeGraph} {suffix : String} {frames : List Frame} {id : TypeId}
  {rest steps : List WalkStep} {s : WalkState}

/-- Entering a class that is not registered puts what its body asks for in front. -/
theorem walk_enter_new (hplace : id ∈ g.places) (hnew : s.registry.contains id = false)
    (hbody : g.bodySteps frames id = steps) :
    walk g suffix (.enter frames id :: rest) s =
      walk g suffix (steps ++ .leave id :: rest) (s.register g suffix id) := by
  rw [walk, if_pos ⟨hplace, hnew⟩, hbody]

/-- What every step keeps between agenda and state holds at the end of a walk. -/
theorem walk_keeps {P : List WalkStep → WalkState → Prop} {agenda : List WalkStep}
    (report : ∀ {d rest s}, P (.report d :: rest) s → P rest (s.report d))
    (enter_new : ∀ {frames id rest s}, id ∈ g.places ∧ s.registry.contains id = false →
      P (.enter frames id :: rest) s →
        P (g.bodySteps frames id ++ .leave id :: rest) (s.register g suffix id))
    (enter_old : ∀ {frames id rest s}, ¬(id ∈ g.places ∧ s.registry.contains id = false) →
      P (.enter frames id :: rest) s → P rest s)
    (leave : ∀ {id rest s}, P (.leave id :: rest) s → P rest (s.leave id))
    (h : P agenda s) : P [] (walk g suffix agenda s) := by
  -- By the cases of the walk, each of which is one step of the invariant.
  induction agenda, s using walk.induct g suffix with
  | case1 s =>
    rw [walk]
    exact h
  | case2 s d rest ih =>
    rw [walk]
    exact ih (report h)
  | case3 s frames id rest hid ih =>
    rw [walk, if_pos hid]
    exact ih (enter_new hid h)
  | case4 s frames id rest hid ih =>
    rw [walk, if_neg hid]
    exact ih (enter_old hid h)
  | case5 s id rest ih =>
    rw [walk]
    exact ih (leave h)

end Steps

/-! ### The invariant -/

/-- What holds between the agenda and the state of a walk from roots. -/
structure WalkInvariant (g : TypeGraph) (roots : List TypeId) (agenda : List WalkStep)
    (s : WalkState) : Prop where
  /-- What the roots ask for is on the agenda or settled. -/
  start : ∀ step ∈ roots.flatMap g.rootSteps, step ∈ agenda ∨ s.Settles g step
  /-- What the body of a registered type asks for is on the agenda or settled. -/
  body : ∀ id, s.registry.contains id →
    ∃ frames, ∀ step ∈ g.bodySteps frames id, step ∈ agenda ∨ s.Settles g step
  /-- A registered type has its place in the order or is still to be left. -/
  left : ∀ id, s.registry.contains id → id ∈ s.registry.order ∨ .leave id ∈ agenda
  /-- A registered type writes a reachable one. -/
  registered : ∀ id, s.registry.contains id → ∃ t, g.Reach roots t ∧ g.WrittenBy t id
  agenda : ∀ step ∈ agenda, g.Justified roots step
  /-- The queue holds errors only, and only for a reason. -/
  queue : ∀ d ∈ s.queue.diagnostics, d.isError ∧ ¬g.Supported roots
  order : ∀ id ∈ s.registry.order, s.registry.contains id
  nodup : s.registry.order.Nodup
  records : ∀ r ∈ s.registry.records, r.progress = .queued ∧ r.typeName = g.name r.type

namespace WalkInvariant

variable {g : TypeGraph} {roots : List TypeId} {rest : List WalkStep} {s : WalkState}

/-- A step that is settled after all need not stay on the agenda. -/
private theorem settles_of_mem {s' : WalkState} {head step : WalkStep} {agenda : List WalkStep}
    (h : step ∈ head :: rest ∨ s.Settles g step) (hsub : rest ⊆ agenda) (hhead : s'.Settles g head)
    (hcontains : ∀ x, s.registry.contains x → s'.registry.contains x)
    (herrors : s.queue.hasErrors?.isSome → s'.queue.hasErrors?.isSome) :
    step ∈ agenda ∨ s'.Settles g step := by
  rcases h with h | h
  -- The step was the first one, which is settled now, or stands in the rest.
  · rcases List.mem_cons.1 h with rfl | h
    · exact Or.inr hhead
    · exact Or.inl (hsub h)
  -- What was settled stays settled.
  · exact Or.inr (h.mono hcontains herrors)

/-- A step that is settled can be passed over, where a type that it leaves has its place. -/
private theorem passOver {step : WalkStep} (h : WalkInvariant g roots (step :: rest) s)
    (hsettle : s.Settles g step)
    (hleave : ∀ id, step = .leave id → s.registry.contains id → id ∈ s.registry.order) :
    WalkInvariant g roots rest s := by
  -- Only the step itself leaves the agenda, and it is settled.
  have hkeep : ∀ x, x ∈ step :: rest ∨ s.Settles g x → x ∈ rest ∨ s.Settles g x := fun x hx =>
    settles_of_mem hx (List.Subset.refl _) hsettle (fun _ hc => hc) fun he => he
  exact {
    start := fun x hx => hkeep x (h.start x hx)
    body := fun id hid => by
      obtain ⟨frames, hbody⟩ := h.body id hid
      exact ⟨frames, fun x hx => hkeep x (hbody x hx)⟩
    -- A registered type has its place, or it is still to be left further down.
    left := fun id hid => by
      rcases h.left id hid with hl | hl
      · exact Or.inl hl
      · rcases List.mem_cons.1 hl with heq | hl
        · exact Or.inl (hleave id heq.symm hid)
        · exact Or.inr hl
    registered := h.registered
    agenda := fun x hx => h.agenda x (List.mem_cons_of_mem _ hx)
    queue := h.queue
    order := h.order
    nodup := h.nodup
    records := h.records }

/-- A diagnostic on the agenda only adds to the queue. -/
private theorem addReport {d : Diagnostic} {agenda : List WalkStep} (hmem : .report d ∈ agenda)
    (h : WalkInvariant g roots agenda s) : WalkInvariant g roots agenda (s.report d) := by
  -- The report is justified, so it is an error and something is not supported.
  have hd := h.agenda _ hmem
  have hadd := DiagnosticQueue.hasErrors?_add (fun e he => (h.queue e he).1) hd.1
  have hkeep : ∀ x, x ∈ agenda ∨ s.Settles g x → x ∈ agenda ∨ (s.report d).Settles g x :=
    fun _ hx => hx.imp_right fun hsettle => hsettle.mono (fun _ hc => hc) fun _ => hadd.1
  exact {
    start := fun x hx => hkeep x (h.start x hx)
    body := fun id hid => by
      obtain ⟨frames, hbody⟩ := h.body id hid
      exact ⟨frames, fun x hx => hkeep x (hbody x hx)⟩
    left := h.left
    registered := h.registered
    agenda := h.agenda
    queue := fun e he => ⟨hadd.2 e he, hd.2⟩
    order := h.order
    nodup := h.nodup
    records := h.records }

/-- A report that is made keeps the invariant. -/
theorem report {d : Diagnostic} (h : WalkInvariant g roots (.report d :: rest) s) :
    WalkInvariant g roots rest (s.report d) := by
  have hd := h.agenda _ List.mem_cons_self
  have hadd := DiagnosticQueue.hasErrors?_add (fun e he => (h.queue e he).1) hd.1
  exact (h.addReport List.mem_cons_self).passOver (fun _ => hadd.1) fun _ heq => nomatch heq

/-- Entering a type that is no place or registered already keeps the invariant. -/
theorem enter_old {frames : List Frame} {id : TypeId}
    (hid : ¬(id ∈ g.places ∧ s.registry.contains id = false))
    (h : WalkInvariant g roots (.enter frames id :: rest) s) : WalkInvariant g roots rest s := by
  -- A type that is registered already is settled.
  have hsettle : s.Settles g (.enter frames id) := by
    intro hmem
    cases hc : s.registry.contains id with
    | true => rfl
    | false => exact absurd ⟨hmem, hc⟩ hid
  exact h.passOver hsettle fun _ heq => nomatch heq

/-- A new type that is entered keeps the invariant. -/
theorem enter_new (hg : g.Consistent) {suffix : String} {frames : List Frame} {id : TypeId}
    (h : WalkInvariant g roots (.enter frames id :: rest) s) :
    WalkInvariant g roots (g.bodySteps frames id ++ .leave id :: rest)
      (s.register g suffix id) := by
  obtain ⟨t, ht, hwritten⟩ := h.agenda _ List.mem_cons_self
  -- The rest of the agenda stays behind the body.
  have hsub : rest ⊆ g.bodySteps frames id ++ .leave id :: rest := fun step hstep =>
    List.mem_append_right _ (List.mem_cons_of_mem _ hstep)
  have hcontains : ∀ x, s.registry.contains x →
      (s.register g suffix id).registry.contains x := by
    intro x hx
    rw [WalkState.contains_register, hx, Bool.or_true]
  have hself : (s.register g suffix id).registry.contains id := by
    rw [WalkState.contains_register, decide_eq_true rfl, Bool.true_or]
  -- What was settled stays so, and the step for the new type itself is settled.
  have hkeep : ∀ step, step ∈ WalkStep.enter frames id :: rest ∨ s.Settles g step →
      step ∈ g.bodySteps frames id ++ .leave id :: rest ∨
        (s.register g suffix id).Settles g step := fun step hstep =>
    settles_of_mem hstep hsub (fun _ => hself) hcontains fun he => he
  -- What is registered now is the new type or was registered before.
  have hcases : ∀ x, (s.register g suffix id).registry.contains x →
      x = id ∨ s.registry.contains x := by
    intro x hx
    rw [WalkState.contains_register, Bool.or_eq_true, decide_eq_true_eq] at hx
    exact hx
  exact {
    start := fun step hstep => hkeep step (h.start step hstep)
    body := fun x hx => by
      rcases hcases x hx with rfl | hx
      · -- The body of the new type is on the agenda as a whole.
        exact ⟨frames, fun step hstep => Or.inl (List.mem_append_left _ hstep)⟩
      · obtain ⟨frames, hbody⟩ := h.body x hx
        exact ⟨frames, fun step hstep => hkeep step (hbody step hstep)⟩
    -- The new type is still to be left, and any other is as before.
    left := fun x hx => by
      rw [WalkState.order_register]
      rcases hcases x hx with rfl | hx
      · exact Or.inr (List.mem_append_right _ List.mem_cons_self)
      · rcases h.left x hx with hl | hl
        · exact Or.inl hl
        · exact Or.inr (hsub ((List.mem_cons.1 hl).resolve_left fun heq => nomatch heq))
    registered := fun x hx => by
      rcases hcases x hx with rfl | hx
      · exact ⟨t, ht, hwritten⟩
      · exact h.registered x hx
    -- What the body asks for is justified by the type that asked for it.
    agenda := fun step hstep => by
      rcases List.mem_append.1 hstep with hstep | hstep
      · exact hg.justified_of_mem_bodySteps ht hwritten hstep
      · rcases List.mem_cons.1 hstep with rfl | hstep
        · trivial
        · exact h.agenda step (List.mem_cons_of_mem _ hstep)
    queue := h.queue
    order := fun x hx => by
      rw [WalkState.order_register] at hx
      exact hcontains x (h.order x hx)
    nodup := by
      rw [WalkState.order_register]
      exact h.nodup
    records := fun r hr => by
      rcases WalkState.mem_records_register hr with hr | ⟨htype, hname, hprogress⟩
      · exact h.records r hr
      · exact ⟨hprogress, by rw [hname, htype]⟩ }

/-- A registered type that is finished gets its place in the order, once. -/
private theorem finish {id : TypeId} {agenda : List WalkStep} (hid : s.registry.contains id)
    (h : WalkInvariant g roots agenda s) : WalkInvariant g roots agenda (s.leave id) := by
  have hqueue : (s.leave id).queue = s.queue := WalkState.queue_leave
  have horder := WalkState.order_leave hid
  have hcontains : ∀ x, (s.leave id).registry.contains x = s.registry.contains x := fun x =>
    WalkState.contains_leave
  -- Leaving the type settles nothing anew and nothing less.
  have hkeep : ∀ x, x ∈ agenda ∨ s.Settles g x → x ∈ agenda ∨ (s.leave id).Settles g x :=
    fun _ hx => hx.imp_right fun hsettle =>
      hsettle.mono (fun y hy => by rw [hcontains]; exact hy) fun he => by rw [hqueue]; exact he
  exact {
    start := fun x hx => hkeep x (h.start x hx)
    body := fun x hx => by
      obtain ⟨frames, hbody⟩ := h.body x (hcontains x ▸ hx)
      exact ⟨frames, fun y hy => hkeep y (hbody y hy)⟩
    -- Places in the order are only added.
    left := fun x hx => by
      rw [horder]
      refine (h.left x (hcontains x ▸ hx)).imp_left fun hl => ?_
      split
      · exact hl
      · exact List.mem_append_left _ hl
    registered := fun x hx => h.registered x (hcontains x ▸ hx)
    agenda := h.agenda
    queue := by
      rw [hqueue]
      exact h.queue
    order := fun x hx => by
      rw [hcontains]
      rw [horder] at hx
      split at hx
      · exact h.order x hx
      · rcases List.mem_append.1 hx with hx | hx
        · exact h.order x hx
        · rw [List.mem_singleton.1 hx]
          exact hid
    -- The type gets no second place.
    nodup := by
      rw [horder]
      split
      case isTrue => exact h.nodup
      case isFalse hmem =>
        refine List.nodup_append.2 ⟨h.nodup, by simp, ?_⟩
        intro a ha b hb
        rw [List.mem_singleton.1 hb]
        exact fun heq => hmem (heq ▸ ha)
    records := by
      rw [WalkState.records_leave]
      exact h.records }

/-- Leaving a type keeps the invariant. -/
theorem leave {id : TypeId} (h : WalkInvariant g roots (.leave id :: rest) s) :
    WalkInvariant g roots rest (s.leave id) := by
  -- A type that is not registered is passed over.
  cases hid : s.registry.contains id with
  | false =>
    rw [WalkState.leave_of_not_contains hid]
    refine h.passOver trivial fun x heq hx => ?_
    cases heq
    rw [hid] at hx
    cases hx
  -- A registered type gets its place first.
  | true =>
    refine (h.finish hid).passOver trivial fun x heq _ => ?_
    cases heq
    rw [WalkState.order_leave hid]
    split
    case isTrue hmem => exact hmem
    case isFalse => exact List.mem_append_right _ List.mem_cons_self

/-- The invariant carries over from any agenda to the end of the walk. -/
theorem walk (hg : g.Consistent) {suffix : String} {agenda : List WalkStep}
    (h : WalkInvariant g roots agenda s) :
    WalkInvariant g roots [] (GraphCodec.walk g suffix agenda s) :=
  walk_keeps report (fun _ => enter_new hg) enter_old leave h

/-- The invariant holds before the first step. -/
theorem start_of_roots (g : TypeGraph) (roots : List TypeId) (config : QueueConfig) :
    WalkInvariant g roots (roots.flatMap g.rootSteps) ⟨.empty, .empty config⟩ where
  start := fun step hstep => Or.inl hstep
  body := fun id hid => nomatch hid
  left := fun id hid => nomatch hid
  registered := fun id hid => nomatch hid
  agenda := by
    intro step hstep
    obtain ⟨root, hroot, hstep⟩ := List.mem_flatMap.1 hstep
    exact TypeGraph.justified_of_mem_rootSteps hroot hstep
  queue := fun d hd => nomatch hd
  order := fun id hid => nomatch hid
  nodup := List.nodup_nil
  records := fun r hr => nomatch hr

end WalkInvariant

/-! ### The end of a walk -/

/-- Whether everything that a type asks for has been done. -/
def WalkState.Visited (s : WalkState) (g : TypeGraph) (id : TypeId) : Prop :=
  ∃ frames, ∀ step ∈ g.typeSteps frames id, s.Settles g step

namespace WalkState.Visited

variable {s : WalkState} {g : TypeGraph} {id : TypeId}

/-- A type inside a visited one is visited. -/
private theorem position (h : s.Visited g id) {p : TypeId} (hp : p ∈ g.positions id) :
    s.Visited g p := by
  obtain ⟨frames, hsettled⟩ := h
  obtain ⟨frames', hsub⟩ := TypeGraph.typeSteps_subset (.position hp (.self p)) frames
  exact ⟨frames', fun step hstep => hsettled step (hsub hstep)⟩

/-- What a visited type itself asks for has been done. -/
theorem own (h : s.Visited g id) :
    ∃ frames, ∀ step ∈ g.ownSteps frames id, s.Settles g step := by
  obtain ⟨frames, hsettled⟩ := h
  refine ⟨frames, fun step hstep => hsettled step ?_⟩
  rw [TypeGraph.typeSteps]
  exact List.mem_append_right _ hstep

/-- The codec that writes a visited type is registered. -/
theorem contains (h : s.Visited g id) {c : TypeId} (hc : g.WrittenBy id c) :
    s.registry.contains c := by
  obtain ⟨frames, hown⟩ := h.own
  exact hown _ (TypeGraph.enter_mem_ownSteps hc) hc.mem_places

/-- Without errors a visited type has a codec. -/
theorem isError_eq_false (h : s.Visited g id) (hok : s.queue.hasErrors?.isSome = false) :
    (g.classify id).isError = false := by
  obtain ⟨frames, hown⟩ := h.own
  rw [Bool.eq_false_iff]
  intro herror
  -- The type would have been reported.
  have hreport : ∃ d : Diagnostic, d.isError ∧ .report d ∈ g.ownSteps frames id := by
    unfold TypeGraph.ownSteps
    cases hc : g.classify id with
    | missingTypeArguments => exact ⟨_, rfl, List.mem_singleton_self _⟩
    | unsupported why => exact ⟨_, rfl, List.mem_singleton_self _⟩
    | _ =>
      rw [hc] at herror
      cases herror
  obtain ⟨d, hd, hmem⟩ := hreport
  rw [hown _ hmem hd] at hok
  cases hok

/-- Without errors a visited map has keys. -/
-- The error would have been reported.
private theorem not_hasEmptyKeys (h : s.Visited g id) (hok : s.queue.hasErrors?.isSome = false) :
    ¬g.HasEmptyKeys id := by
  rintro ⟨key, value, c, hmap, hkey, hlacks⟩
  obtain ⟨frames, hsettled⟩ := h
  have hreport : WalkStep.problem frames (.abstractNotAllowed (g.name key) "map key") ∈
      g.typeSteps frames id := by
    rw [TypeGraph.typeSteps, List.append_assoc]
    apply List.mem_append_left
    simp [TypeGraph.keySteps, hmap, hkey, TypeGraph.lacksInstances_iff.2 hlacks]
  rw [hsettled _ hreport rfl] at hok
  cases hok

/-- A class asks for no more than to be entered. -/
private theorem rawClass (h : s.Visited g id) {c : TypeId} (hc : g.classify id = .userClass c) :
    s.Visited g c := by
  -- The class is registered, so its own step is settled.
  have hregistered := h.contains (Or.inr hc)
  obtain ⟨body, hbody, _⟩ := TypeGraph.classify_eq_userClass hc
  have hself := TypeGraph.classify_userClass_self hc
  have hpositions := TypeGraph.positions_eq_nil hbody
  refine ⟨[], fun step hstep => ?_⟩
  obtain ⟨q, frames, hq, hstep⟩ := TypeGraph.exists_within_of_mem_typeSteps hstep
  cases hq with
  | self =>
    rcases hstep with hstep | hstep
    · simp [TypeGraph.keySteps, hself] at hstep
    · have heq : step = .enter frames c := by simpa [TypeGraph.ownSteps, hself] using hstep
      rw [heq]
      exact fun _ => hregistered
  -- A class without arguments has nothing inside it.
  | position hp _ =>
    rw [hpositions] at hp
    cases hp

end WalkState.Visited

namespace WalkInvariant

variable {g : TypeGraph} {roots : List TypeId} {s : WalkState} {id : TypeId}

/-- What the body of a registered class is made of has been visited. -/
private theorem visited_of_mem_bodyTypes (h : WalkInvariant g roots [] s)
    (hid : s.registry.contains id) {t : TypeId} (ht : t ∈ g.bodyTypes id) : s.Visited g t := by
  obtain ⟨frames, hbody⟩ := h.body id hid
  obtain ⟨frames', hsub⟩ := TypeGraph.typeSteps_subset_bodySteps ht frames
  exact ⟨frames', fun step hstep => (hbody step (hsub hstep)).resolve_left fun hmem => nomatch hmem⟩

/-- Without errors a root is neither built in nor without instances, and has been visited. -/
theorem root (h : WalkInvariant g roots [] s) (hok : s.queue.hasErrors?.isSome = false)
    (hid : id ∈ roots) :
    (g.classify id).isBuiltIn = false ∧
      (∀ c, g.classify id = .userClass c → g.lacksInstances c = false) ∧ s.Visited g id := by
  have hsettled : ∀ step ∈ g.rootSteps id, s.Settles g step := fun step hstep =>
    (h.start step (List.mem_flatMap.2 ⟨id, hid, hstep⟩)).resolve_left fun hmem => nomatch hmem
  -- An error on the agenda of a root would have been reported.
  have hreport : ∀ d : Diagnostic, d.isError → .report d ∉ g.rootSteps id := by
    intro d hd hmem
    rw [hsettled _ hmem hd] at hok
    cases hok
  -- A root that is built in would have been reported.
  have hbuiltIn : (g.classify id).isBuiltIn = false := by
    rw [Bool.eq_false_iff]
    intro hb
    refine hreport _ ?_ (show WalkStep.problem [.root (g.name id)] (.unknownRoot (g.name id)) ∈ _
      from ?_)
    · rfl
    · simp [TypeGraph.rootSteps, hb]
  -- So would one without instances.
  have hinstances : ∀ c, g.classify id = .userClass c → g.lacksInstances c = false := by
    intro c hc
    rw [Bool.eq_false_iff]
    intro hlacks
    refine hreport _ ?_ (show WalkStep.problem [.root (g.name id)]
      (.abstractNotAllowed (g.name id) "generation root") ∈ _ from ?_)
    · rfl
    · simp [TypeGraph.rootSteps, hc, hlacks, Classification.isBuiltIn]
  -- The root has been visited on its way.
  refine ⟨hbuiltIn, hinstances, [.root (g.name id)], fun step hstep => hsettled step ?_⟩
  unfold TypeGraph.rootSteps
  dsimp only
  rw [hbuiltIn, if_neg Bool.false_ne_true]
  split
  case h_1 c hc =>
    rw [hinstances c hc, if_neg Bool.false_ne_true]
    exact hstep
  case h_2 => exact hstep

/-- Without errors everything that is reachable has been visited. -/
theorem visited (h : WalkInvariant g roots [] s) (hok : s.queue.hasErrors?.isSome = false)
    (hid : g.Reach roots id) : s.Visited g id := by
  -- The body of a class is visited because the class is registered.
  have hbody : ∀ {id t : TypeId}, s.Visited g id → g.classify id = .userClass id →
      t ∈ g.bodyTypes id → s.Visited g t := fun hv hc ht =>
    h.visited_of_mem_bodyTypes (hv.contains (Or.inr hc)) ht
  induction hid with
  -- A root has been visited, and each step from a visited type leads to a visited one.
  | root hroot => exact (h.root hok hroot).2.2
  | @component id component _ hk ih =>
    -- An array that is not a sequence would have been reported.
    have hnot := ih.isError_eq_false hok
    have hc : g.classify id = g.classifyArray component := by rw [TypeGraph.classify, hk]
    unfold TypeGraph.classifyArray at hc
    split at hc
    · rw [hc] at hnot
      cases hnot
    · exact ih.position (by simp [TypeGraph.positions, hc, Classification.elements])
  | element _ hc ih =>
    exact ih.position (by simp [TypeGraph.positions, hc, Classification.elements])
  | key _ hc ih => exact ih.position (by simp [TypeGraph.positions, hc, Classification.elements])
  | value _ hc ih => exact ih.position (by simp [TypeGraph.positions, hc, Classification.elements])
  | argument _ hc hk hmem ih =>
    exact ih.position (by simpa [TypeGraph.positions, hc, TypeGraph.typeArguments, hk] using hmem)
  | rawClass _ hc ih => exact ih.rawClass hc
  | superclass _ hc hin habove ih =>
    exact hbody ih hc (by simp [TypeGraph.bodyTypes, hin, habove])
  | subtype _ hc hsub ih => exact hbody ih hc (by simp [TypeGraph.bodyTypes, hsub])
  | field _ hc hf ih =>
    exact hbody ih hc (List.mem_append_right _ (List.mem_map_of_mem hf))

/-- Without errors a walk has registered what writes the reachable types, and nothing else. -/
theorem contains_iff (h : WalkInvariant g roots [] s)
    (hok : s.queue.hasErrors?.isSome = false) :
    s.registry.contains id ↔ ∃ t, g.Reach roots t ∧ g.WrittenBy t id := by
  constructor
  · exact h.registered id
  · rintro ⟨t, ht, hwritten⟩
    exact (h.visited hok ht).contains hwritten

/-- A walk finds no errors exactly when everything that is reachable is supported. -/
theorem hasErrors?_iff (h : WalkInvariant g roots [] s) :
    s.queue.hasErrors?.isSome = false ↔ g.Supported roots := by
  constructor
  · intro hok
    exact {
      not_builtIn := fun root hroot => (h.root hok hroot).1
      root_instances := fun root hroot c hc hlacks => by
        have := (h.root hok hroot).2.1 c hc
        rw [TypeGraph.lacksInstances_iff.2 hlacks] at this
        cases this
      not_error := fun id hid => (h.visited hok hid).isError_eq_false hok
      keys := fun id hid => (h.visited hok hid).not_hasEmptyKeys hok }
  · intro hs
    -- An error in the queue would have a reason.
    have hnil : s.queue.diagnostics = [] := by
      rw [List.eq_nil_iff_forall_not_mem]
      exact fun d hd => (h.queue d hd).2 hs
    simp [DiagnosticQueue.hasErrors?, DiagnosticQueue.errorCount, hnil]

end WalkInvariant

/-! ### Orders that are computed -/

/-- The generation order that an agenda leads to in at most some number of steps, from the types
that are registered and those that have their places. -/
def TypeGraph.orderWithin (g : TypeGraph) :
    Nat → List WalkStep → List TypeId → List TypeId → Option (List TypeId)
  | _, [], _, order => some order
  | 0, _ :: _, _, _ => none
  | steps + 1, .report _ :: rest, seen, order => g.orderWithin steps rest seen order
  | steps + 1, .enter frames id :: rest, seen, order =>
    if id ∈ g.places ∧ id ∉ seen then
      g.orderWithin steps (g.bodySteps frames id ++ .leave id :: rest) (id :: seen) order
    else g.orderWithin steps rest seen order
  | steps + 1, .leave id :: rest, seen, order =>
    g.orderWithin steps rest seen (if id ∈ seen ∧ id ∉ order then order ++ [id] else order)

/-- A walk that ends in some number of steps ends with the order that is computed. -/
theorem order_walk_of_orderWithin {g : TypeGraph} {suffix : String} {steps : Nat}
    {agenda : List WalkStep} {seen order : List TypeId} {s : WalkState}
    (hseen : ∀ id, s.registry.contains id = decide (id ∈ seen))
    (h : g.orderWithin steps agenda seen s.registry.order = some order) :
    (walk g suffix agenda s).registry.order = order := by
  -- By induction on the steps; identities and reports do not matter for the order.
  induction steps generalizing agenda seen s with
  -- Without steps left the agenda has to be empty.
  | zero =>
    cases agenda with
    | nil =>
      rw [walk]
      exact Option.some.inj h
    | cons => cases h
  | succ steps ih =>
    cases agenda with
    | nil =>
      rw [walk]
      exact Option.some.inj h
    | cons step rest =>
      -- A report does not change what is registered.
      cases step with
      | report d =>
        rw [walk]
        exact ih hseen h
      -- A type that has not been seen is registered, and seen from now on.
      | enter frames id =>
        have hnew : s.registry.contains id = false ↔ id ∉ seen := by
          rw [hseen, decide_eq_false_iff_not]
        rw [TypeGraph.orderWithin] at h
        rw [walk]
        split at h
        case isTrue hid =>
          rw [if_pos ⟨hid.1, hnew.2 hid.2⟩]
          refine ih (fun x => ?_) (by rw [WalkState.order_register]; exact h)
          rw [WalkState.contains_register, hseen, Bool.eq_iff_iff]
          simp
        case isFalse hid =>
          rw [if_neg fun hmem => hid ⟨hmem.1, hnew.1 hmem.2⟩]
          exact ih hseen h
      -- A type that is left gets its place if it was seen and has none.
      | leave id =>
        rw [TypeGraph.orderWithin] at h
        have horder : (s.leave id).registry.order =
            if id ∈ seen ∧ id ∉ s.registry.order then s.registry.order ++ [id]
            else s.registry.order := by
          by_cases hid : id ∈ seen
          · rw [WalkState.order_leave (by rw [hseen, decide_eq_true hid])]
            simp only [hid, true_and, ite_not]
          · rw [WalkState.leave_of_not_contains (by rw [hseen, decide_eq_false hid]),
              if_neg fun hmem => hid hmem.1]
        rw [walk]
        exact ih (fun x => by rw [WalkState.contains_leave, hseen]) (horder ▸ h)

end GraphCodec
