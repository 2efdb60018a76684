import GraphCodec.Codec.Table

/-!
# Linked tables

Linking plans of different names yields a table in which every plan is found under its name, and
nothing else is (`CodecTable.object?_ofPlans`, `CodecTable.enum?_ofPlans`).
-/

namespace GraphCodec

/-- The plan of a class or interface, if a plan is one. -/
def CodecPlan.object? : CodecPlan → Option ObjectPlan
  | .object p => some p
  | .enum _ => none

/-- The plan of an enum, if a plan is one. -/
def CodecPlan.enum? : CodecPlan → Option EnumPlan
  | .object _ => none
  | .enum p => some p

/-! ### Lists with keys -/

section Replace

variable {α : Type} (key : α → String)

/-- Puts something in front, in the place of what has the same key. -/
def replace (l : List α) (a : α) : List α := a :: l.filter (key · ≠ key a)

/-- An element put in place of those of its name is found under it, and the others as before. -/
theorem find?_replace (l : List α) (a : α) (name : String) :
    (replace key l a).find? (key · == name) =
      if key a = name then some a else l.find? (key · == name) := by
  unfold replace
  by_cases h : key a = name
  · rw [if_pos h, List.find?_cons_of_pos (by simpa using h)]
  -- Under another name the elements that were taken out would not have been found.
  · rw [if_neg h, List.find?_cons_of_neg (by simpa using h), List.find?_filter]
    congr 1
    funext b
    by_cases hb : key b = name
    · simp [hb, Ne.symm h]
    · simp [hb]

end Replace

namespace CodecTable

variable {t : CodecTable} {name tag : String} {plan : CodecPlan} {plans : List CodecPlan}

/-- Linking a class changes what is found under its name. -/
private theorem object?_linkPlan (plan : CodecPlan) :
    (t.linkPlan plan).object? name =
      if plan.typeName = name then plan.object?.or (t.object? name) else t.object? name := by
  cases plan with
  | enum p => exact (ite_self _).symm
  | object p => exact find?_replace ObjectPlan.typeName t.objects p name

/-- Linking an enum changes what is found under its name. -/
private theorem enum?_linkPlan (plan : CodecPlan) :
    (t.linkPlan plan).enum? name =
      if plan.typeName = name then plan.enum?.or (t.enum? name) else t.enum? name := by
  cases plan with
  | object p => exact (ite_self _).symm
  | enum p => exact find?_replace EnumPlan.typeName t.enums p name

/-- Linking plans of other names does not matter for a name. -/
theorem link_of_ne (h : ∀ p ∈ plans, p.typeName ≠ name) :
    (t.link plans).object? name = t.object? name ∧ (t.link plans).enum? name = t.enum? name := by
  induction plans generalizing t with
  | nil => exact ⟨rfl, rfl⟩
  | cons p rest ih =>
    -- The first plan has another name, and by induction so have the rest.
    have hp := h p List.mem_cons_self
    obtain ⟨hobject, henum⟩ := ih (t := t.linkPlan p) fun q hq => h q (List.mem_cons_of_mem _ hq)
    rw [link, List.foldl_cons, ← link, hobject, henum, object?_linkPlan, enum?_linkPlan,
      if_neg hp, if_neg hp]
    exact ⟨rfl, rfl⟩

/-- A plan that is linked with others of different names is found under its name. -/
theorem link_of_mem (hnodup : (plans.map CodecPlan.typeName).Nodup) (hplan : plan ∈ plans) :
    (t.link plans).object? plan.typeName = plan.object?.or (t.object? plan.typeName) ∧
      (t.link plans).enum? plan.typeName = plan.enum?.or (t.enum? plan.typeName) := by
  induction plans generalizing t with
  | nil => cases hplan
  | cons p rest ih =>
    rw [List.map_cons, List.nodup_cons] at hnodup
    rw [link, List.foldl_cons, ← link]
    -- The plan is the first one: those behind it have other names and leave it where it is.
    rcases List.mem_cons.1 hplan with rfl | hmem
    · have hrest : ∀ q ∈ rest, q.typeName ≠ plan.typeName := fun q hq heq =>
        hnodup.1 (heq ▸ List.mem_map_of_mem hq)
      obtain ⟨hobject, henum⟩ := link_of_ne (t := t.linkPlan plan) hrest
      rw [hobject, henum, object?_linkPlan, enum?_linkPlan, if_pos rfl, if_pos rfl]
      exact ⟨rfl, rfl⟩
    -- The plan stands further back, so the first one has another name.
    · have hne : p.typeName ≠ plan.typeName := fun heq =>
        hnodup.1 (heq ▸ List.mem_map_of_mem hmem)
      obtain ⟨hobject, henum⟩ := ih (t := t.linkPlan p) hnodup.2 hmem
      rw [hobject, henum, object?_linkPlan, enum?_linkPlan, if_neg hne, if_neg hne]
      exact ⟨rfl, rfl⟩

/-- What is found in the table of some plans. -/
private theorem exists_of_ofPlans (tag : String) (hnodup : (plans.map CodecPlan.typeName).Nodup)
    (name : String) :
    (∃ plan ∈ plans, plan.typeName = name ∧ (ofPlans tag plans).object? name = plan.object? ∧
      (ofPlans tag plans).enum? name = plan.enum?) ∨
    (∀ plan ∈ plans, plan.typeName ≠ name) ∧ (ofPlans tag plans).object? name = none ∧
      (ofPlans tag plans).enum? name = none := by
  -- A plan has the name, or none has.
  by_cases h : ∃ plan ∈ plans, plan.typeName = name
  · obtain ⟨plan, hplan, rfl⟩ := h
    obtain ⟨hobject, henum⟩ := link_of_mem (t := empty tag) hnodup hplan
    have hempty : (empty tag).object? plan.typeName = none ∧
        (empty tag).enum? plan.typeName = none := ⟨rfl, rfl⟩
    rw [hempty.1, Option.or_none] at hobject
    rw [hempty.2, Option.or_none] at henum
    exact Or.inl ⟨plan, hplan, rfl, hobject, henum⟩
  · have hne : ∀ plan ∈ plans, plan.typeName ≠ name := fun plan hplan heq => h ⟨plan, hplan, heq⟩
    obtain ⟨hobject, henum⟩ := link_of_ne (t := empty tag) hne
    exact Or.inr ⟨hne, hobject, henum⟩

/-- A class is found under its name, and under no other. -/
theorem object?_ofPlans (hnodup : (plans.map CodecPlan.typeName).Nodup) {p : ObjectPlan} :
    (ofPlans tag plans).object? name = some p ↔ .object p ∈ plans ∧ p.typeName = name := by
  constructor
  · intro h
    -- The plan of that name is in the list, and it is the class that was found.
    rcases exists_of_ofPlans tag hnodup name with ⟨plan, hplan, hname, hobject, _⟩ | hnone
    · rw [hobject] at h
      cases plan with
      | object q =>
        cases h
        exact ⟨hplan, hname⟩
      | enum q => cases h
    · rw [hnone.2.1] at h
      cases h
  · rintro ⟨hplan, rfl⟩
    exact (link_of_mem (t := empty tag) hnodup hplan).1

/-- An enum is found under its name, and under no other. -/
theorem enum?_ofPlans (hnodup : (plans.map CodecPlan.typeName).Nodup) {p : EnumPlan} :
    (ofPlans tag plans).enum? name = some p ↔ .enum p ∈ plans ∧ p.typeName = name := by
  constructor
  · intro h
    rcases exists_of_ofPlans tag hnodup name with ⟨plan, hplan, hname, _, henum⟩ | hnone
    · rw [henum] at h
      cases plan with
      | object q => cases h
      | enum q =>
        cases h
        exact ⟨hplan, hname⟩
    · rw [hnone.2.2] at h
      cases h
  -- Conversely the plan is found under its name.
  · rintro ⟨hplan, rfl⟩
    exact (link_of_mem (t := empty tag) hnodup hplan).2

/-- The name of an enum is not that of a class. -/
theorem object?_of_enum (hnodup : (plans.map CodecPlan.typeName).Nodup) {p : EnumPlan}
    (h : .enum p ∈ plans) : (ofPlans tag plans).object? p.typeName = none :=
  (link_of_mem (t := empty tag) hnodup h).1

/-- The classes of the table of some plans are those of the plans. -/
theorem mem_objects_ofPlans {p : ObjectPlan} (h : p ∈ (ofPlans tag plans).objects) :
    .object p ∈ plans := by
  -- Linking adds the class of a plan, and only takes away others of the same name.
  have hlink : ∀ (t : CodecTable) (plans : List CodecPlan), p ∈ (t.link plans).objects →
      p ∈ t.objects ∨ .object p ∈ plans := by
    intro t plans
    induction plans generalizing t with
    | nil => exact Or.inl
    | cons q rest ih =>
      intro h
      rw [link, List.foldl_cons, ← link] at h
      rcases ih _ h with h | h
      · cases q with
        | object q =>
          rcases List.mem_cons.1 h with rfl | h
          · exact Or.inr List.mem_cons_self
          · exact Or.inl ((List.mem_filter.1 h).1)
        | enum q => exact Or.inl h
      · exact Or.inr (List.mem_cons_of_mem _ h)
  exact (hlink _ _ h).resolve_left fun hmem => nomatch hmem

end CodecTable

end GraphCodec
