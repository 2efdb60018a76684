import GraphCodec.Proofs.Lists
import GraphCodec.Proofs.Types.Built
import Mathlib.Logic.Function.Basic
import Mathlib.Logic.Relation
import Mathlib.Order.Basic

/-!
# Graphs with the same types at other places

`TypeGraph.Renames σ g g'` says that the graph `g'` holds the types of `g` at the places that `σ`
names: every type under its own name, made of the renamed types, with the renamed superclass and
the same interfaces and fields in any order.  The types that every graph starts with stay where they
are.

What a graph says about the classes above a type and about its fields is renamed with the types
(`Renames.ancestors`, `Renames.serializableFields`).  So is the set of what is reached from a type
(`mem_reach_iff`), though the order in which it is found is not.
-/

namespace GraphCodec

/-! ### What is reached -/

section Reach

open Relation

variable {α : Type} {next : α → List α} {unseen pending : List α} {a : α}

/-- Whether one element leads to another one of a domain. -/
def LeadsTo (next : α → List α) (unseen : List α) (a b : α) : Prop := b ∈ next a ∧ b ∈ unseen

/-- A step within a domain is one within a larger domain. -/
private theorem LeadsTo.mono {unseen' : List α} (hsub : ∀ x ∈ unseen, x ∈ unseen') {b : α}
    (h : LeadsTo next unseen a b) : LeadsTo next unseen' a b :=
  ⟨h.1, hsub b h.2⟩

variable [DecidableEq α]

/-- A way through a domain ends at one of its elements or goes on without it, from where it was met
last. -/
private theorem exists_way_without {b p : α} (hp : p ∈ unseen) (hpb : p = b ∨ p ∈ pending)
    (h : ReflTransGen (LeadsTo next unseen) p a) :
    a = b ∨ ∃ q ∈ next b ++ pending, q ∈ unseen.erase b ∧
      ReflTransGen (LeadsTo next (unseen.erase b)) q a := by
  have hother : ∀ {x : α}, x ∈ unseen → x ≠ b → x ∈ unseen.erase b := fun hx hne =>
    (List.mem_erase_of_ne hne).2 hx
  -- Behind the last time that it passes `b`, the way stays clear of it.
  induction h with
  | refl =>
    by_cases hne : p = b
    · exact Or.inl hne
    · have hpending := hpb.resolve_left hne
      exact Or.inr ⟨p, List.mem_append_right _ hpending, hother hp hne, .refl⟩
  | @tail y z _ hstep ih =>
    -- The way has just come to `b`, or has been there before, or never.
    by_cases hne : z = b
    · exact Or.inl hne
    · cases ih with
      | inl hy =>
        rw [hy] at hstep
        exact Or.inr ⟨z, List.mem_append_left _ hstep.1, hother hstep.2 hne, .refl⟩
      | inr ih =>
        obtain ⟨q, hq, hmem, hway⟩ := ih
        exact Or.inr ⟨q, hq, hmem, hway.tail ⟨hstep.1, hother hstep.2 hne⟩⟩

/-- What is found are the elements of the domain to which ways lead from pending ones. -/
theorem mem_reach_iff : a ∈ reach next unseen pending ↔
    ∃ p ∈ pending, p ∈ unseen ∧ ReflTransGen (LeadsTo next unseen) p a := by
  -- The cases are those of the search: nothing pending, an element of the domain, and one outside
  -- or met before.
  induction unseen, pending using reach.induct next with
  | case1 unseen => simp [reach]
  | case2 unseen b rest hmem ih =>
    rw [reach, if_pos hmem, List.mem_cons, ih]
    -- A way from what is pending now is one from `b` and on, or one that leaves `b` out.
    constructor
    · rintro (rfl | ⟨p, hp, hpu, hway⟩)
      · exact ⟨a, List.mem_cons_self, hmem, .refl⟩
      · have hpu := List.mem_of_mem_erase hpu
        have hway : ReflTransGen (LeadsTo next unseen) p a :=
          ReflTransGen.mono (fun _ _ => LeadsTo.mono fun _ => List.mem_of_mem_erase) _ _ hway
        cases List.mem_append.1 hp with
        | inl hp => exact ⟨b, List.mem_cons_self, hmem, hway.head ⟨hp, hpu⟩⟩
        | inr hp => exact ⟨p, List.mem_cons_of_mem _ hp, hpu, hway⟩
    -- In the other direction, a way that passes `b` starts again behind it.
    · rintro ⟨p, hp, hpu, hway⟩
      exact exists_way_without hpu (List.mem_cons.1 hp) hway
  | case3 unseen b rest hmem ih =>
    rw [reach, if_neg hmem, ih]
    -- An element outside the domain begins no way.
    constructor
    · rintro ⟨p, hp, h⟩
      exact ⟨p, List.mem_cons_of_mem _ hp, h⟩
    · rintro ⟨p, hp, hpu, hway⟩
      have hne : p ≠ b := fun heq => hmem (heq ▸ hpu)
      exact ⟨p, (List.mem_cons.1 hp).resolve_left hne, hpu, hway⟩

/-- The search stays within its domain. -/
private theorem mem_unseen_of_mem_reach (h : a ∈ reach next unseen pending) : a ∈ unseen := by
  obtain ⟨p, -, hp, hway⟩ := mem_reach_iff.1 h
  cases hway with
  | refl => exact hp
  | tail _ hstep => exact hstep.2

/-- What is found among renamed elements is what is found among the elements. -/
theorem mem_reach_map {β : Type} [DecidableEq β] {σ : α → β} (hσ : Function.Bijective σ)
    {next' : β → List β} {unseen' pending' : List β} (hnext : ∀ x y, σ y ∈ next' (σ x) ↔ y ∈ next x)
    (hunseen : ∀ x, σ x ∈ unseen' ↔ x ∈ unseen) (hpending : ∀ x, σ x ∈ pending' ↔ x ∈ pending) :
    σ a ∈ reach next' unseen' pending' ↔ a ∈ reach next unseen pending := by
  rw [mem_reach_iff, mem_reach_iff]
  constructor
  · rintro ⟨p, hp, hpu, hway⟩
    -- The way back is renamed by the inverse.
    have hinv := Function.surjInv_eq hσ.surjective
    have hback : ReflTransGen (LeadsTo next unseen) (Function.surjInv hσ.surjective p)
        (Function.surjInv hσ.surjective (σ a)) := hway.lift _ fun x y hxy => by
      rw [← hinv x, ← hinv y] at hxy
      exact ⟨(hnext _ _).1 hxy.1, (hunseen _).1 hxy.2⟩
    rw [hσ.injective (hinv (σ a))] at hback
    exact ⟨_, (hpending _).1 ((hinv p).symm ▸ hp), (hunseen _).1 ((hinv p).symm ▸ hpu), hback⟩
  · rintro ⟨p, hp, hpu, hway⟩
    exact ⟨σ p, (hpending p).2 hp, (hunseen p).2 hpu,
      hway.lift σ fun x y hxy => ⟨(hnext x y).2 hxy.1, (hunseen y).2 hxy.2⟩⟩

/-- Nothing is found twice. -/
theorem nodup_reach (h : unseen.Nodup) : (reach next unseen pending).Nodup := by
  induction unseen, pending using reach.induct next with
  | case1 unseen => simp [reach]
  -- What is found now is no longer in the domain for the rest of the search.
  | case2 unseen b rest hmem ih =>
    rw [reach, if_pos hmem, List.nodup_cons]
    exact ⟨fun hb => h.not_mem_erase (mem_unseen_of_mem_reach hb), ih (h.erase b)⟩
  | case3 unseen b rest hmem ih =>
    rw [reach, if_neg hmem]
    exact ih h

end Reach

/-! ### Renaming -/

/-- A field with its type renamed. -/
def Field.rename (σ : TypeId → TypeId) (f : Field) : Field := { f with type := σ f.type }

/-- Whether a body is another one with its types renamed.  Fields may change places if their names
tell them apart. -/
structure ClassBody.Renames (σ : TypeId → TypeId) (body body' : ClassBody) : Prop where
  isLibrary : body'.isLibrary = body.isLibrary
  isAbstract : body'.isAbstract = body.isAbstract
  superclass : body'.superclass = body.superclass.map σ
  interfaces : ∀ id, σ id ∈ body'.interfaces ↔ id ∈ body.interfaces
  fields : body'.fields = body.fields.map (Field.rename σ) ∨
    (body.fields.map (Field.rename σ)).Perm body'.fields ∧ (body.fields.map (·.name)).Nodup

/-- Whether a type is of the sort of another one, with its types renamed. -/
inductive TypeKind.Renames (σ : TypeId → TypeId) : TypeKind → TypeKind → Prop where
  | primitive (p : Primitive) : TypeKind.Renames σ (.primitive p) (.primitive p)
  | boxed (s : Scalar) : TypeKind.Renames σ (.boxed s) (.boxed s)
  | classType {body body' : ClassBody} :
    body.Renames σ body' → TypeKind.Renames σ (.classType body) (.classType body')
  | interfaceType {body body' : ClassBody} :
    body.Renames σ body' → TypeKind.Renames σ (.interfaceType body) (.interfaceType body')
  | enumType (variants : List String) : TypeKind.Renames σ (.enumType variants) (.enumType variants)
  | arrayType (component : TypeId) :
    TypeKind.Renames σ (.arrayType component) (.arrayType (σ component))
  | parameterized (raw : TypeId) (arguments : List TypeId) :
    TypeKind.Renames σ (.parameterized raw arguments) (.parameterized (σ raw) (arguments.map σ))

namespace TypeGraph

/-- Whether a graph holds the types of another one at the places that a renaming gives. -/
structure Renames (σ : TypeId → TypeId) (g g' : TypeGraph) : Prop where
  bijective : Function.Bijective σ
  size : g'.size = g.size
  mem_places : ∀ id, σ id ∈ g'.places ↔ id ∈ g.places
  /-- The types that every graph starts with stay where they are. -/
  fixed : ∀ id, id.isPrelude → σ id = id
  name : ∀ id, g'.name (σ id) = g.name id
  kind : ∀ id, (g.kind id).Renames σ (g'.kind (σ id))

variable {σ : TypeId → TypeId} {g g' : TypeGraph} {id : TypeId}

theorem nodup_places (g : TypeGraph) : g.places.Nodup :=
  List.nodup_range.map fun _ _ h => TypeId.mk.inj h

namespace Renames

variable (h : Renames σ g g')

include h

/-- Only a type that every graph starts with is renamed to it. -/
theorem eq_iff (other : TypeId) (hother : other.isPrelude) : σ id = other ↔ id = other := by
  rw [← h.bijective.injective.eq_iff (a := id), h.fixed other hother]

/-! ### The bodies of classes -/

/-- A type has a body when the renamed type has one, and then it is renamed. -/
-- By the kind, which is renamed.
theorem classBody?_cases (id : TypeId) :
    g.classBody? id = none ∧ g'.classBody? (σ id) = none ∨
      ∃ body body', g.classBody? id = some body ∧ g'.classBody? (σ id) = some body' ∧
        body.Renames σ body' := by
  have hkind := h.kind id
  unfold TypeGraph.classBody?
  generalize g.kind id = kind at hkind ⊢
  generalize g'.kind (σ id) = kind' at hkind ⊢
  cases hkind with
  | classType hbody => exact Or.inr ⟨_, _, rfl, rfl, hbody⟩
  | interfaceType hbody => exact Or.inr ⟨_, _, rfl, rfl, hbody⟩
  | _ => exact Or.inl ⟨rfl, rfl⟩

/-- A renamed type is abstract if the type is. -/
theorem isAbstract (id : TypeId) : g'.isAbstract (σ id) = g.isAbstract id := by
  have hkind := h.kind id
  unfold TypeGraph.isAbstract
  generalize g.kind id = kind at hkind ⊢
  generalize g'.kind (σ id) = kind' at hkind ⊢
  cases hkind with
  | classType hbody => exact hbody.isAbstract
  | _ => rfl

/-- The superclass of a renamed class is the renamed superclass. -/
theorem superclass? (id : TypeId) : g'.superclass? (σ id) = (g.superclass? id).map σ := by
  unfold TypeGraph.superclass?
  -- Without a body there is no superclass in either graph.
  rcases h.classBody?_cases id with ⟨hnone, hnone'⟩ | ⟨body, body', hbody, hbody', hren⟩
  · rw [hnone, hnone']
    rfl
  · rw [hbody, hbody']
    exact hren.superclass

/-- What is named as being above a type is renamed. -/
private theorem mem_parents {above : TypeId} :
    σ above ∈ (g'.kind (σ id)).parents ↔ above ∈ (g.kind id).parents := by
  rcases h.classBody?_cases id with ⟨hnone, hnone'⟩ | ⟨body, body', hbody, hbody', hren⟩
  · rw [TypeKind.parents_eq_nil hnone, TypeKind.parents_eq_nil hnone']
    simp
  · rw [parents_eq hbody, parents_eq hbody', List.mem_append, List.mem_append, hren.interfaces,
      hren.superclass, Option.mem_toList, Option.mem_toList, Option.map_eq_some_iff]
    simp only [h.bijective.injective.eq_iff, exists_eq_right]

/-! ### Superclasses and fields -/

/-- The classes above a renamed class are the renamed ones above the class. -/
theorem ancestors (id : TypeId) : g'.ancestors (σ id) = (g.ancestors id).map σ := by
  unfold TypeGraph.ancestors
  -- As many steps are allowed in both graphs, since they are of one size.
  rw [h.size]
  generalize g.size = steps
  induction steps generalizing id with
  | zero => rfl
  | succ steps ih =>
    rw [ancestorsWithin, ancestorsWithin, h.superclass?]
    -- The chain ends in both, or goes on with the superclass and its renaming.
    cases g.superclass? id with
    | none => rfl
    | some above =>
      rw [Option.map_some]
      dsimp only
      rw [ih above, List.map_cons]

/-- The fields that are written come in the same order, because their names do. -/
theorem serializableFields (id : TypeId) :
    g'.serializableFields (σ id) = (g.serializableFields id).map (Field.rename σ) := by
  unfold TypeGraph.serializableFields
  -- Without a body there are no fields in either graph.
  rcases h.classBody?_cases id with ⟨hnone, hnone'⟩ | ⟨body, body', hbody, hbody', hren⟩
  · rw [hnone, hnone']
    rfl
  · rw [hbody, hbody']
    dsimp only
    -- Sorting looks at the names alone, so it can be done before or after renaming.
    have hmap : ((body.fields.filter (·.isSerializable)).mergeSort
        fun a b => decide (a.name ≤ b.name)).map (Field.rename σ) =
          ((body.fields.map (Field.rename σ)).filter (·.isSerializable)).mergeSort
            fun a b => decide (a.name ≤ b.name) := by
      rw [List.filter_map]
      exact List.map_mergeSort fun _ _ _ _ => rfl
    rw [hmap]
    -- Fields in another order have distinct names, so sorting puts them into one order.
    rcases hren.fields with heq | ⟨hperm, hnodup⟩
    · rw [heq]
    · refine (List.mergeSort_eq_of_perm (hperm.filter _) fun a ha b hb hab => ?_).symm
      have hnames : ((body.fields.map (Field.rename σ)).map (·.name)).Nodup := by
        rw [List.map_map]
        exact hnodup
      exact List.inj_on_of_nodup_map hnames (List.mem_filter.1 ha).1 (List.mem_filter.1 hb).1 hab

/-- Whether a class inherits fields that are written does not change with the renaming. -/
theorem hasInheritedFields (id : TypeId) :
    g'.hasInheritedFields (σ id) = g.hasInheritedFields id := by
  unfold TypeGraph.hasInheritedFields
  -- The class at the top stays where it is.
  have htop : ((fun a => decide (a ≠ TypeId.object)) ∘ σ) = fun a => decide (a ≠ .object) := by
    funext a
    exact decide_eq_decide.2 (not_congr (h.eq_iff .object rfl))
  rw [h.ancestors, List.takeWhile_map, htop, List.any_map]
  congr 1
  funext above
  show (!(g'.serializableFields (σ above)).isEmpty) = _
  rw [h.serializableFields, List.isEmpty_map]

/-! ### Subtypes -/

/-- The direct subtypes of a renamed type are the renamed ones. -/
theorem mem_directSubtypes {sub : TypeId} :
    σ sub ∈ g'.directSubtypes (σ id) ↔ sub ∈ g.directSubtypes id := by
  simp only [TypeGraph.directSubtypes, List.mem_filter, decide_eq_true_eq, h.mem_places,
    h.mem_parents]

/-- The places apart from that of a type are renamed. -/
theorem mem_erase {x : TypeId} : σ x ∈ g'.places.erase (σ id) ↔ x ∈ g.places.erase id := by
  rw [g'.nodup_places.mem_erase_iff, g.nodup_places.mem_erase_iff, h.mem_places,
    h.bijective.injective.ne_iff]

end Renames

end TypeGraph

end GraphCodec
