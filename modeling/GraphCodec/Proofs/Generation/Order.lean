import GraphCodec.Proofs.Generation.Generate
import GraphCodec.Proofs.Types.Descent
import GraphCodec.Proofs.Types.Lineage

/-!
# The generation order

A class depends on its superclass if that adds fields, on its subtypes, and on what writes the types
of its fields (`TypeGraph.DependsOn`).  The walk gives a class its place in the order when
everything that its body asks for has been entered.  What has been entered but has no place yet is
still to be left further down the agenda, and everything that is on the agenda in front of where a
class is left is a dependency of that class, direct or not (`OrderInvariant`).

So each dependency stands in front of the class in the order, unless the class is itself a
dependency of it (`GeneratorConfig.dependencies_first`).
-/

namespace GraphCodec

open Relation

namespace TypeGraph

variable {g : TypeGraph} {roots : List TypeId} {c d : TypeId} {frames : List Frame}

/-- Whether a class directly depends on a type: a superclass that adds fields, a subtype, or the
enum or class that writes something inside the type of a field. -/
inductive DependsOn (g : TypeGraph) (c : TypeId) : TypeId → Prop where
  | superclass {above : TypeId} :
    g.hasInheritedFields c → g.superclass? c = some above → DependsOn g c above
  | subtype {sub : TypeId} : sub ∈ g.subtypes c → DependsOn g c sub
  | field {f : Field} {t d : TypeId} :
    f ∈ g.serializableFields c → g.Within f.type t → g.WrittenBy t d → DependsOn g c d

/-- Whether a class directly depends on a reachable type that has a codec of its own. -/
def Asks (g : TypeGraph) (roots : List TypeId) (c d : TypeId) : Prop :=
  g.DependsOn c d ∧ g.Reach roots d ∧ g.WrittenBy d d

/-- A class or interface without type arguments is written by no other codec than its own. -/
private theorem eq_of_writtenBy {body : ClassBody} (hbody : g.classBody? c = some body)
    (h : g.WrittenBy c d) : d = c := by
  rcases h with ⟨-, rfl⟩ | hclass
  · rfl
  · rw [classify_of_classBody? hbody] at hclass
    exact (classifyClass_eq_userClass hclass).1

/-- What is inside the types of a body is what the class depends on. -/
private theorem Consistent.dependsOn_of_within (hg : g.Consistent) {t q : TypeId}
    (ht : t ∈ g.bodyTypes c) (hq : g.Within t q) (hd : g.WrittenBy q d) : g.DependsOn c d := by
  -- A superclass or subtype has nothing inside it.
  have hself : ∀ {body : ClassBody}, g.classBody? t = some body → d = t := by
    intro body hbody
    cases hq with
    | self => exact eq_of_writtenBy hbody hd
    | position hp _ =>
      rw [positions_eq_nil hbody] at hp
      cases hp
  unfold bodyTypes at ht
  rw [List.mem_append, List.mem_append] at ht
  rcases ht with (ht | ht) | ht
  -- The superclass adds fields.
  · split at ht
    case isTrue hin =>
      have hs := Option.mem_toList.1 ht
      obtain ⟨body, hbody⟩ := Option.isSome_iff_exists.1 (hg.below hs).2
      rw [hself hbody]
      exact .superclass hin hs
    case isFalse => cases ht
  -- A subtype is a class, as something stands above it.
  · obtain ⟨above, habove, -⟩ := TransGen.head'_iff.1 (mem_subtypes_iff.1 ht).2
    obtain ⟨-, body, hbody⟩ := habove.exists_classBody?
    rw [hself hbody]
    -- What is inside the type of a field is a dependency through that field.
    exact .subtype ht
  · obtain ⟨f, hf, rfl⟩ := List.mem_map.1 ht
    exact .field hf hq hd

/-- What a class depends on is inside the types of its body. -/
private theorem DependsOn.exists_within (h : g.DependsOn c d) (hd : g.WrittenBy d d) :
    ∃ t ∈ g.bodyTypes c, ∃ q, g.Within t q ∧ g.WrittenBy q d := by
  unfold bodyTypes
  -- Each kind of dependency has its place in the body.
  cases h with
  | superclass hin hs =>
    rw [if_pos hin]
    exact ⟨d, List.mem_append_left _ (List.mem_append_left _ (Option.mem_toList.2 hs)), d,
      .self d, hd⟩
  | subtype hsub =>
    exact ⟨d, List.mem_append_left _ (List.mem_append_right _ hsub), d, .self d, hd⟩
  | field hf hq hd => exact ⟨_, List.mem_append_right _ (List.mem_map_of_mem hf), _, hq, hd⟩

end TypeGraph

/-- The enum or class that a step enters or leaves. -/
def WalkStep.target? : WalkStep → Option TypeId
  | .report _ => none
  | .enter _ id => some id
  | .leave id => some id

namespace TypeGraph

variable {g : TypeGraph} {roots : List TypeId} {c d : TypeId} {frames : List Frame}
  {step : WalkStep}

/-- What a body asks to be entered is what the class depends on, and nothing is left in it. -/
private theorem Consistent.cases_of_mem_bodySteps (hg : g.Consistent)
    (h : step ∈ g.bodySteps frames c) :
    step.target? = none ∨ ∃ frames' d, step = .enter frames' d ∧ g.DependsOn c d := by
  obtain ⟨t, ht, frames', h⟩ := exists_of_mem_bodySteps h
  obtain ⟨q, hq, ⟨frames'', d, rfl, hd⟩ | ⟨d, rfl, -⟩⟩ := cases_of_mem_typeSteps h
  · exact Or.inr ⟨frames'', d, rfl, hg.dependsOn_of_within ht hq hd⟩
  · exact Or.inl rfl

/-- What a class depends on is entered by what its body asks for. -/
private theorem DependsOn.exists_enter (h : g.DependsOn c d) (hd : g.WrittenBy d d)
    (frames : List Frame) : ∃ frames', .enter frames' d ∈ g.bodySteps frames c := by
  obtain ⟨t, ht, q, hq, hd⟩ := h.exists_within hd
  obtain ⟨frames₁, hbody⟩ := typeSteps_subset_bodySteps ht frames
  obtain ⟨frames₂, htype⟩ := typeSteps_subset hq frames₁
  refine ⟨frames₂, hbody (htype ?_)⟩
  rw [typeSteps]
  exact List.mem_append_right _ (enter_mem_ownSteps hd)

/-- A root asks for nothing to be left. -/
private theorem leave_notMem_rootSteps {root : TypeId} : .leave c ∉ g.rootSteps root := by
  intro hmem
  rcases cases_of_mem_rootSteps hmem with hmem | ⟨_, heq, -⟩
  · obtain ⟨_, -, ⟨_, _, heq, -⟩ | ⟨_, heq, -⟩⟩ := cases_of_mem_typeSteps hmem
    · cases heq
    · cases heq
  · cases heq

end TypeGraph

/-! ### What one step keeps -/

/-- What holds between the agenda and the order of a walk from roots. -/
structure OrderInvariant (g : TypeGraph) (roots : List TypeId) (agenda : List WalkStep)
    (s : WalkState) : Prop where
  /-- What is in front of where a class is left is a dependency of the class. -/
  nested : agenda.Pairwise fun step later =>
    ∀ d c, step.target? = some d → later = .leave c → TransGen (g.Asks roots) c d
  /-- When a class is left, what it depends on has been entered. -/
  closing : ∀ before c after, agenda = before ++ .leave c :: after → ∀ d, g.Asks roots c d →
    (∃ frames, .enter frames d ∈ before) ∨ s.registry.contains d
  /-- What a class in the order depends on is in front of it, or depends on the class itself. -/
  order : ∀ before c after, s.registry.order = before ++ c :: after → ∀ d, g.Asks roots c d →
    d ∈ before ∨ ReflTransGen (g.Asks roots) d c

namespace OrderInvariant

variable {g : TypeGraph} {roots : List TypeId} {rest : List WalkStep} {s : WalkState}

/-- Passing over a step that neither leaves a class nor enters one that is to be entered. -/
private theorem closing_of_cons {step : WalkStep} (h : OrderInvariant g roots (step :: rest) s)
    {s' : WalkState} (hcontains : ∀ x, s.registry.contains x → s'.registry.contains x)
    (hstep : ∀ frames d, step = .enter frames d → g.WrittenBy d d → s'.registry.contains d) :
    ∀ before c after, rest = before ++ .leave c :: after → ∀ d, g.Asks roots c d →
      (∃ frames, .enter frames d ∈ before) ∨ s'.registry.contains d := by
  intro before c after heq d hd
  -- On the longer agenda the dependency was entered in front of the class, maybe by this very step.
  rcases h.closing (step :: before) c after (by rw [heq, List.cons_append]) d hd with
    ⟨frames, hmem⟩ | hregistered
  · rcases List.mem_cons.1 hmem with hhead | hmem
    · exact Or.inr (hstep frames d hhead.symm hd.2.2)
    · exact Or.inl ⟨frames, hmem⟩
  · exact Or.inr (hcontains d hregistered)

/-- A report changes nothing about the order. -/
private theorem report {d : Diagnostic} (h : OrderInvariant g roots (.report d :: rest) s) :
    OrderInvariant g roots rest (s.report d) where
  nested := (List.pairwise_cons.1 h.nested).2
  closing := h.closing_of_cons (fun _ hx => hx) fun _ _ heq => nomatch heq
  order := h.order

/-- Entering what is no place, or is entered already, changes nothing about the order. -/
private theorem enter_old {frames : List Frame} {id : TypeId}
    (h : OrderInvariant g roots (.enter frames id :: rest) s)
    (hold : ¬(id ∈ g.places ∧ s.registry.contains id = false)) :
    OrderInvariant g roots rest s where
  nested := (List.pairwise_cons.1 h.nested).2
  closing := h.closing_of_cons (fun _ hx => hx) fun frames' d heq hd => by
    cases heq
    rw [not_and, Bool.not_eq_false] at hold
    exact hold hd.mem_places
  order := h.order

/-- A type that is entered for the first time puts its body on the agenda, and behind it the step
that leaves the type. -/
private theorem enter_new (hg : g.Consistent) {suffix : String} {frames : List Frame} {id : TypeId}
    (h : OrderInvariant g roots (.enter frames id :: rest) s)
    (hw : WalkInvariant g roots (g.bodySteps frames id ++ .leave id :: rest)
      (s.register g suffix id)) :
    OrderInvariant g roots (g.bodySteps frames id ++ .leave id :: rest)
      (s.register g suffix id) := by
  have ⟨hhead, htail⟩ := List.pairwise_cons.1 h.nested
  -- What the body asks to be entered is reachable, because the step is justified.
  have hasks : ∀ step ∈ g.bodySteps frames id, ∀ d, step.target? = some d →
      g.Asks roots id d := by
    intro step hstep d hd
    rcases hg.cases_of_mem_bodySteps hstep with hnone | ⟨frames', d', rfl, hdepends⟩
    · rw [hnone] at hd
      cases hd
    · cases hd
      have hjustified := hw.agenda _ (List.mem_append_left _ hstep)
      exact ⟨hdepends, TypeGraph.exists_writtenBy_iff.1 hjustified⟩
  -- The body itself leaves nothing.
  have hnot : ∀ c, .leave c ∉ g.bodySteps frames id := by
    intro c hmem
    rcases hg.cases_of_mem_bodySteps hmem with hnone | ⟨_, _, heq, -⟩
    · cases hnone
    · cases heq
  -- What was registered stays so, and the type itself is.
  have hcontains : ∀ x, x = id ∨ s.registry.contains x →
      (s.register g suffix id).registry.contains x := by
    intro x hx
    rw [WalkState.contains_register, Bool.or_eq_true, decide_eq_true_eq]
    exact hx
  refine ⟨List.pairwise_append.2 ⟨?_, List.pairwise_cons.2 ⟨hhead, htail⟩, ?_⟩, ?_, ?_⟩
  -- Within the body no step leaves a type.
  · refine List.pairwise_of_forall_mem_list fun step _ later hlater d c _ heq => ?_
    exact absurd (heq ▸ hlater) (hnot c)
  -- What the body enters is asked for by the type, and thereby by all that is to be left behind it.
  · intro step hstep later hlater d c hd heq
    have hsingle : TransGen (g.Asks roots) id d := .single (hasks step hstep d hd)
    rcases List.mem_cons.1 hlater with rfl | hlater
    · cases heq
      exact hsingle
    · exact (hhead later hlater id c rfl heq).trans hsingle
  · intro before c after heq d hd
    -- Nothing is left in the body, so a class is left at the new step or behind it.
    obtain ⟨mid, rfl, hrest⟩ := List.exists_of_append_eq (hnot c) heq
    cases mid with
    -- The type itself is left right behind its body, which enters all that the type depends on.
    | nil =>
      cases hrest
      obtain ⟨frames', hmem⟩ := hd.1.exists_enter hd.2.2 frames
      exact Or.inl ⟨frames', List.mem_append_left _ hmem⟩
    -- Any other type was to be left before, and its dependencies are on the agenda or registered.
    | cons step mid =>
      rw [List.cons_append, List.cons.injEq] at hrest
      rcases h.closing (.enter frames id :: mid) c after
        (by rw [hrest.2, List.cons_append]) d hd with ⟨frames', hmem⟩ | hregistered
      · rcases List.mem_cons.1 hmem with hhead | hmem
        · cases hhead
          exact Or.inr (hcontains id (Or.inl rfl))
        · exact Or.inl ⟨frames', List.mem_append_right _ (List.mem_cons_of_mem _ hmem)⟩
      · exact Or.inr (hcontains d (Or.inr hregistered))
  · rw [WalkState.order_register]
    exact h.order

/-- A class that is left gets its place behind all that it depends on, apart from what is still to
be left, which depends on it. -/
private theorem leave {id : TypeId} (hw : WalkInvariant g roots (.leave id :: rest) s)
    (h : OrderInvariant g roots (.leave id :: rest) s) :
    OrderInvariant g roots rest (s.leave id) := by
  have ⟨hhead, htail⟩ := List.pairwise_cons.1 h.nested
  -- What is registered stays so.
  refine ⟨htail, h.closing_of_cons (fun x hx => ?_) (fun _ _ heq => nomatch heq), ?_⟩
  · rw [WalkState.contains_leave]
    exact hx
  -- Only a registered type gets a place.
  · cases hid : s.registry.contains id with
    | false =>
      rw [WalkState.leave_of_not_contains hid]
      exact h.order
    | true =>
      rw [WalkState.order_leave hid]
      -- A type that has a place already keeps it.
      split
      case isTrue => exact h.order
      case isFalse =>
        intro before c after heq d hd
        -- Only the class that is left has a new place, and it is the last one.
        rcases List.eq_nil_or_concat after with rfl | ⟨after, x, rfl⟩
        · obtain ⟨rfl, hlast⟩ := List.append_inj' heq rfl
          cases hlast
          have hregistered : s.registry.contains d :=
            (h.closing [] id rest rfl d hd).resolve_left fun ⟨_, hmem⟩ => nomatch hmem
          rcases hw.left d hregistered with hplaced | hpending
          · exact Or.inl hplaced
          -- What has no place yet is still to be left, so it depends on the class in turn.
          · right
            rcases List.mem_cons.1 hpending with hself | hpending
            · cases hself
              exact .refl
            · exact (hhead _ hpending id d rfl rfl).to_reflTransGen
        -- Any other type has its place as before.
        · rw [List.concat_eq_append, ← List.cons_append, ← List.append_assoc] at heq
          exact h.order before c after (List.append_inj' heq rfl).1 d hd

/-- Nothing has a place before the first step. -/
private theorem start_of_roots (g : TypeGraph) (roots : List TypeId) (config : QueueConfig) :
    OrderInvariant g roots (roots.flatMap g.rootSteps) ⟨.empty, .empty config⟩ := by
  -- The roots are entered, and nothing is left.
  have hnot : ∀ c, .leave c ∉ roots.flatMap g.rootSteps := by
    intro c hmem
    obtain ⟨root, -, hmem⟩ := List.mem_flatMap.1 hmem
    exact TypeGraph.leave_notMem_rootSteps hmem
  exact {
    nested := List.pairwise_of_forall_mem_list fun _ _ later hlater _ c _ heq =>
      absurd (heq ▸ hlater) (hnot c)
    closing := fun before c after heq => absurd (by rw [heq]; simp) (hnot c)
    order := fun before c after heq => absurd heq (by simp [Registry.empty]) }

/-- The invariant carries over from any agenda to the end of the walk.  It needs that of the walk,
which says what is registered and what is still to be left. -/
private theorem walk (hg : g.Consistent) {suffix : String} {agenda : List WalkStep}
    (hw : WalkInvariant g roots agenda s) (h : OrderInvariant g roots agenda s) :
    OrderInvariant g roots [] (GraphCodec.walk g suffix agenda s) := by
  -- Both invariants are kept by each kind of step.
  have hboth : WalkInvariant g roots [] (GraphCodec.walk g suffix agenda s) ∧
      OrderInvariant g roots [] (GraphCodec.walk g suffix agenda s) :=
    walk_keeps
      (P := fun agenda s => WalkInvariant g roots agenda s ∧ OrderInvariant g roots agenda s)
      (fun h => ⟨h.1.report, h.2.report⟩)
      (fun _ h => ⟨h.1.enter_new hg, h.2.enter_new hg (h.1.enter_new hg)⟩)
      (fun hid h => ⟨h.1.enter_old hid, h.2.enter_old hid⟩)
      (fun h => ⟨h.1.leave, OrderInvariant.leave h.1 h.2⟩) ⟨hw, h⟩
  exact hboth.2

end OrderInvariant

/-! ### The order of a generation -/

namespace GeneratorConfig

open TypeGraph

variable {g : TypeGraph} {roots : List TypeId} {c : GeneratorConfig} {u : GeneratedUnit}

/-- The generation order: the types that get plans, in the order of the plans. -/
def order (c : GeneratorConfig) (g : TypeGraph) (roots : List TypeId) : List TypeId :=
  (c.walk g roots).registry.order

/-- Whether a type that gets a plan directly depends on another one. -/
def PlannedDependency (c : GeneratorConfig) (g : TypeGraph) (roots : List TypeId)
    (a d : TypeId) : Prop :=
  a ∈ c.order g roots ∧ d ∈ c.order g roots ∧ g.DependsOn a d

/-- The order of a walk from roots satisfies the invariant of the order. -/
private theorem orderInvariant (hg : g.Consistent) (c : GeneratorConfig) (roots : List TypeId) :
    OrderInvariant g roots [] (c.walk g roots) :=
  (OrderInvariant.start_of_roots g roots _).walk hg (WalkInvariant.start_of_roots g roots _)

section Planned

variable (hg : g.Consistent) (hs : g.Supported roots)

include hg hs

/-- A planned dependency is asked for by a type. -/
private theorem PlannedDependency.asks {a d : TypeId} (h : c.PlannedDependency g roots a d) :
    g.Asks roots a d :=
  ⟨h.2.2, (mem_order_iff hg hs).1 h.2.1⟩

/-- Dependencies of a type with a plan have plans. -/
private theorem plannedDependency_of_asks {a d : TypeId} (ha : a ∈ c.order g roots)
    (h : g.Asks roots a d) : c.PlannedDependency g roots a d :=
  ⟨ha, (mem_order_iff hg hs).2 h.2, h.1⟩

/-- A chain of types that ask for each other consists of planned dependencies. -/
private theorem reflTransGen_plannedDependency {a d : TypeId}
    (h : ReflTransGen (g.Asks roots) d a) (hd : d ∈ c.order g roots) :
    ReflTransGen (c.PlannedDependency g roots) d a := by
  induction h using ReflTransGen.head_induction_on with
  | refl => exact .refl
  -- The first step leads to a planned type, and the rest starts there.
  | head hstep _ ih =>
    have hplanned := plannedDependency_of_asks hg hs hd hstep
    exact (ih hplanned.2.1).head hplanned

/-- A dependency stands in front, or depends on the type itself. -/
private theorem idxOf_lt_or_reflTransGen {a d : TypeId} (h : c.PlannedDependency g roots a d) :
    (c.order g roots).idxOf d < (c.order g roots).idxOf a ∨
      ReflTransGen (c.PlannedDependency g roots) d a := by
  have hnodup : (c.order g roots).Nodup := (walkInvariant hg c roots).nodup
  -- The order is split at the type.
  obtain ⟨before, after, hsplit⟩ := List.append_of_mem h.1
  rcases (orderInvariant hg c roots).order before a after hsplit d (h.asks hg hs) with hmem | hway
  -- The dependency has its place before the type, and so a smaller index.
  · left
    rw [hsplit] at hnodup ⊢
    have ha : a ∉ before := fun hmem =>
      (List.nodup_append.1 hnodup).2.2 a hmem a List.mem_cons_self rfl
    rw [List.idxOf_append_of_mem hmem, List.idxOf_append_of_notMem ha, List.idxOf_cons_self]
    exact Nat.lt_add_right 0 (List.idxOf_lt_length_of_mem hmem)
  -- The dependency leads back to the type.
  · exact Or.inr (reflTransGen_plannedDependency hg hs hway h.2.1)

end Planned

/-- Plans come in an order in which each type stands behind the types that it directly depends on,
apart from those that depend on it in turn.  If no type depends on itself, each stands behind all
that it depends on. -/
theorem dependencies_first (hg : g.Built) (hu : c.generate g roots = .ok u) :
    (c.order g roots).Nodup ∧
    List.Forall₂ (fun id p => g.plan c.droppedStart id = .ok p) (c.order g roots) u.plans ∧
    (∀ a d, c.PlannedDependency g roots a d →
      (c.order g roots).idxOf d < (c.order g roots).idxOf a ∨
        ReflTransGen (c.PlannedDependency g roots) d a) ∧
    ((∀ a, ¬TransGen (c.PlannedDependency g roots) a a) →
      ∀ a d, c.PlannedDependency g roots a d →
        (c.order g roots).idxOf d < (c.order g roots).idxOf a) := by
  have hcons := hg.consistent
  obtain ⟨hs, -, hplans⟩ := generate_eq_ok hcons hu
  refine ⟨(walkInvariant hcons c roots).nodup, hplans, fun a d h =>
    -- Leading back would make a cycle.
    idxOf_lt_or_reflTransGen hcons hs h, fun hacyclic a d h => ?_⟩
  exact (idxOf_lt_or_reflTransGen hcons hs h).resolve_right fun hway =>
    hacyclic a (TransGen.head' h hway)

/-- The classes of a network are found from the topmost one down. -/
theorem orderWithin_network : Example.networkGraph.orderWithin 10
    ([⟨36⟩].flatMap Example.networkGraph.rootSteps) [] [] = some [⟨34⟩, ⟨35⟩, ⟨36⟩] := by cbv

/-- The classes of a network are planned from the topmost one down. -/
theorem order_network : standard.order Example.networkGraph [⟨36⟩] = [⟨34⟩, ⟨35⟩, ⟨36⟩] :=
  order_walk_eq 10 orderWithin_network

/-- In a network the class at the bottom stands behind its superclass.  The topmost class stands in
front of the one at the bottom, which is a subtype of it, but that one depends on the topmost class
in turn. -/
theorem dependencies_first_of_network :
    Example.networkGraph.Built ∧
    ∃ u, standard.generate Example.networkGraph [⟨36⟩] = .ok u ∧
      List.Forall₂ (fun id p => Example.networkGraph.plan standard.droppedStart id = .ok p)
        [⟨34⟩, ⟨35⟩, ⟨36⟩] u.plans ∧
      standard.PlannedDependency Example.networkGraph [⟨36⟩] ⟨36⟩ ⟨35⟩ ∧
      standard.PlannedDependency Example.networkGraph [⟨36⟩] ⟨34⟩ ⟨36⟩ ∧
      ReflTransGen (standard.PlannedDependency Example.networkGraph [⟨36⟩]) ⟨36⟩ ⟨34⟩ := by
  have hbuilt : Example.networkGraph.Built := Schema.built_of_load Schema.load_networkSchema
  have hsubtypes : Example.networkGraph.subtypes ⟨34⟩ = [⟨36⟩, ⟨35⟩] := by cbv
  obtain ⟨u, hu⟩ := exists_generate hbuilt.consistent standard supported_networkGraph
  obtain ⟨-, hplans, hfirst, -⟩ := dependencies_first hbuilt hu
  -- The three classes are planned.
  have hmem : ∀ id ∈ ([⟨34⟩, ⟨35⟩, ⟨36⟩] : List TypeId),
      id ∈ standard.order Example.networkGraph [⟨36⟩] := fun id hid => order_network ▸ hid
  have habove : standard.PlannedDependency Example.networkGraph [⟨36⟩] ⟨36⟩ ⟨35⟩ :=
    ⟨hmem _ (by decide), hmem _ (by decide), .superclass (by cbv) (by cbv)⟩
  have hbelow : standard.PlannedDependency Example.networkGraph [⟨36⟩] ⟨34⟩ ⟨36⟩ :=
    ⟨hmem _ (by decide), hmem _ (by decide), .subtype (hsubtypes ▸ List.mem_cons_self)⟩
  rw [order_network] at hplans hfirst
  -- The subtype stands behind the topmost class, so it has to lead back to it.
  exact ⟨hbuilt, u, hu, hplans, habove, hbelow, (hfirst _ _ hbelow).resolve_left (by decide)⟩

end GeneratorConfig

end GraphCodec
