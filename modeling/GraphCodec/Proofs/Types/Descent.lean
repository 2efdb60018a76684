import GraphCodec.Proofs.Types.Renaming

/-!
# Subtypes

The subtypes of a type are found by a search down from it that visits no type twice and does not go
through the type itself, since interfaces may stand above each other.  What it finds are the types
from which the type is reached by going up (`TypeGraph.mem_subtypes_iff`): a way up may leave out
the turns that come back to the type.

Those with instances of their own are classes (`TypeGraph.mem_concreteSubtypes_iff`), and they come
in the order of their names.
-/

namespace GraphCodec

namespace TypeGraph

open Relation

variable {g : TypeGraph} {id sub : TypeId}

/-- Whether a type names another one as its superclass or one of its interfaces. -/
def IsA (g : TypeGraph) (sub above : TypeId) : Prop := above ∈ (g.kind sub).parents

/-- Only a class or an interface of the graph names types above itself. -/
theorem IsA.exists_classBody? (h : g.IsA sub id) :
    sub ∈ g.places ∧ ∃ body, g.classBody? sub = some body := by
  -- A type without a body names nothing above itself.
  cases hbody : g.classBody? sub with
  | none =>
    rw [IsA, TypeKind.parents_eq_nil hbody] at h
    cases h
  -- Outside the graph there is no type to name one.
  | some body =>
    refine ⟨Decidable.byContradiction fun hmem => ?_, body, rfl⟩
    rw [IsA, kind_of_not_mem hmem] at h
    cases h

/-- The direct subtypes of a type are those that name it above themselves. -/
private theorem mem_directSubtypes : sub ∈ g.directSubtypes id ↔ g.IsA sub id := by
  rw [directSubtypes, List.mem_filter, decide_eq_true_eq]
  exact ⟨fun h => h.2, fun h => ⟨h.exists_classBody?.1, h⟩⟩

/-- A step of the search down from a type. -/
private theorem leadsTo_directSubtypes_iff {above : TypeId} :
    LeadsTo g.directSubtypes (g.places.erase id) above sub ↔ g.IsA sub above ∧ sub ≠ id := by
  rw [LeadsTo, mem_directSubtypes, g.nodup_places.mem_erase_iff]
  exact ⟨fun h => ⟨h.1, h.2.1⟩, fun h => ⟨h.1, h.2, h.1.exists_classBody?.1⟩⟩

/-- What the search down from a type finds, before it is sorted. -/
private theorem mem_reach_directSubtypes_iff :
    sub ∈ reach g.directSubtypes (g.places.erase id) (g.directSubtypes id) ↔
      sub ≠ id ∧ TransGen g.IsA sub id := by
  simp only [mem_reach_iff, mem_directSubtypes]
  constructor
  · rintro ⟨p, hp, hpu, hway⟩
    have hne : p ≠ id := (g.nodup_places.mem_erase_iff.1 hpu).1
    -- Each further step of the search is one more step in front of the way up.
    induction hway with
    | refl => exact ⟨hne, .single hp⟩
    | tail _ hstep ih =>
      obtain ⟨hisA, hne⟩ := leadsTo_directSubtypes_iff.1 hstep
      exact ⟨hne, ih.2.head hisA⟩
  · rintro ⟨hne, hup⟩
    -- From the type down, each step of the way is one of the search.
    induction hup using TransGen.head_induction_on with
    | single h => exact ⟨_, h, g.nodup_places.mem_erase_iff.2 ⟨hne, h.exists_classBody?.1⟩, .refl⟩
    | @head sub above h _ ih =>
      -- A way that comes through the type starts again from there.
      by_cases habove : above = id
      · subst habove
        exact ⟨sub, h, g.nodup_places.mem_erase_iff.2 ⟨hne, h.exists_classBody?.1⟩, .refl⟩
      · obtain ⟨p, hp, hpu, hway⟩ := ih habove
        exact ⟨p, hp, hpu, hway.tail (leadsTo_directSubtypes_iff.2 ⟨h, hne⟩)⟩

private theorem mem_sortByName {ids : List TypeId} : sub ∈ g.sortByName ids ↔ sub ∈ ids :=
  List.mem_mergeSort

/-- The subtypes of a type are the other types from which it is reached by going up. -/
theorem mem_subtypes_iff : sub ∈ g.subtypes id ↔ sub ≠ id ∧ TransGen g.IsA sub id := by
  rw [subtypes, mem_sortByName, mem_reach_directSubtypes_iff]

/-- No subtype is found twice. -/
private theorem nodup_subtypes (g : TypeGraph) (id : TypeId) : (g.subtypes id).Nodup :=
  (List.mergeSort_perm _ _).nodup_iff.2 (nodup_reach (g.nodup_places.erase id))

/-- Whether a type is a class with instances of its own. -/
def IsConcreteClass (g : TypeGraph) (id : TypeId) : Prop :=
  ∃ body, g.kind id = .classType body ∧ body.isAbstract = false

/-- A class or interface that is not abstract is a class with instances of its own. -/
private theorem isAbstract_eq_false_iff {body : ClassBody} (h : g.classBody? id = some body) :
    g.isAbstract id = false ↔ g.IsConcreteClass id := by
  unfold classBody? at h
  unfold isAbstract IsConcreteClass
  cases hk : g.kind id with
  | classType b => simp
  | interfaceType b => simp
  -- Any other kind has no body.
  | _ =>
    rw [hk] at h
    cases h

/-- The concrete subtypes of a type are the other classes with instances of their own from which it
is reached by going up. -/
theorem mem_concreteSubtypes_iff :
    sub ∈ g.concreteSubtypes id ↔ sub ≠ id ∧ g.IsConcreteClass sub ∧ TransGen g.IsA sub id := by
  -- The subtypes are filtered by not being abstract.
  rw [concreteSubtypes, List.mem_filter, mem_subtypes_iff, Bool.not_eq_true', and_assoc]
  refine and_congr_right fun _ => ?_
  rw [and_comm]
  refine and_congr_left fun hup => ?_
  -- The first step up is made by a class or an interface.
  obtain ⟨_, hstep, -⟩ := TransGen.head'_iff.1 hup
  obtain ⟨-, body, hbody⟩ := hstep.exists_classBody?
  exact isAbstract_eq_false_iff hbody

/-- No concrete subtype is listed twice. -/
theorem nodup_concreteSubtypes (g : TypeGraph) (id : TypeId) : (g.concreteSubtypes id).Nodup :=
  (g.nodup_subtypes id).filter _

/-- The concrete subtypes of a class stand in ascending order of name. -/
theorem pairwise_concreteSubtypes (id : TypeId) :
    ((g.concreteSubtypes id).map g.name).Pairwise (· ≤ ·) := by
  have hsorted : (g.subtypes id).Pairwise fun a b => g.name a ≤ g.name b :=
    List.pairwise_mergeSort_name g.name _
  exact List.pairwise_map.2 (hsorted.filter _)

end TypeGraph

end GraphCodec
