import GraphCodec.Proofs.Types.Built
import Mathlib.Data.Finset.Card
import Mathlib.Logic.Relation

/-!
# Superclasses

In a graph that can be built no class is above itself (`TypeGraph.Built.acyclic`), because a
superclass is refused if the class stands above it already.  So there are fewer superclasses than
places, and the steps that are allowed for finding them are never used up: above a class stand its
superclass and what is above that (`TypeGraph.Acyclic.ancestors_eq`).
-/

namespace GraphCodec

/-! ### Steps that do not lead back -/

section Steps

open Relation

variable {α β : Type} {r : α → α → Prop} {s : Finset β} {a b : α}

open Classical in
/-- A step to something in a finite set leaves fewer elements of the set to be reached, if the way
from there does not lead back. -/
theorem card_reached_lt (place : β → α) (hstep : r a b) (hback : ¬TransGen r b b)
    (hmem : ∃ x ∈ s, place x = b) :
    (s.filter fun x => TransGen r b (place x)).card <
      (s.filter fun x => TransGen r a (place x)).card := by
  obtain ⟨x, hx, rfl⟩ := hmem
  -- What is reached from there is reached from here, and the place itself is reached from here
  -- alone.
  refine Finset.card_lt_card ((Finset.ssubset_iff_of_subset fun y hy => ?_).2 ⟨x, ?_, ?_⟩)
  · obtain ⟨hy, hup⟩ := Finset.mem_filter.1 hy
    exact Finset.mem_filter.2 ⟨hy, hup.head hstep⟩
  · exact Finset.mem_filter.2 ⟨hx, .single hstep⟩
  · exact fun hself => hback (Finset.mem_filter.1 hself).2

end Steps

namespace TypeGraph

open Relation

variable {g g' : TypeGraph} {id above : TypeId}

/-- Whether a class is right below a superclass. -/
def Below (g : TypeGraph) (id above : TypeId) : Prop := g.superclass? id = some above

/-- Whether no class is above itself. -/
def Acyclic (g : TypeGraph) : Prop := ∀ id, ¬TransGen g.Below id id

/-- What is above a class is a class or an interface of the graph. -/
theorem Consistent.below (hg : g.Consistent) (h : g.Below id above) :
    above ∈ g.places ∧ (g.classBody? above).isSome := by
  obtain ⟨body, hbody, hsuper⟩ := Option.bind_eq_some_iff.1 h
  refine hg.parents id above ?_
  rw [parents_eq hbody]
  exact List.mem_append_left _ (Option.mem_toList.2 hsuper)

/-! ### How many classes are above a class -/

open Classical in
/-- The places above a class. -/
noncomputable def placesAbove (g : TypeGraph) (id : TypeId) : Finset Nat :=
  (Finset.range g.size).filter fun i => TransGen g.Below id ⟨i⟩

/-- The places above a class are those that are reached by going up. -/
private theorem mem_placesAbove {i : Nat} :
    i ∈ g.placesAbove id ↔ i < g.size ∧ TransGen g.Below id ⟨i⟩ := by
  simp only [placesAbove, Finset.mem_filter, Finset.mem_range]

/-- The number of classes above a class. -/
noncomputable def height (g : TypeGraph) (id : TypeId) : Nat := (g.placesAbove id).card

/-- No class has more above it than there are types. -/
theorem height_le_size (g : TypeGraph) (id : TypeId) : g.height id ≤ g.size := by
  have hsub : g.placesAbove id ⊆ Finset.range g.size := fun i hi =>
    Finset.mem_range.2 (mem_placesAbove.1 hi).1
  calc g.height id ≤ (Finset.range g.size).card := Finset.card_le_card hsub
    _ = g.size := Finset.card_range _

/-- A class without a superclass has nothing above it. -/
theorem ancestors_eq_nil (h : g.superclass? id = none) : g.ancestors id = [] := by
  -- A search without steps finds nothing either.
  rw [ancestors]
  cases g.size with
  | zero => rfl
  | succ n => simp only [ancestorsWithin, h]

namespace Acyclic

variable (ha : g.Acyclic) (hg : g.Consistent)

include ha hg

/-- A superclass has fewer classes above it, because it is not above itself. -/
theorem height_lt (h : g.Below id above) : g.height above < g.height id :=
  card_reached_lt TypeId.mk h (ha above)
    ⟨above.index, Finset.mem_range.2 (mem_places.1 (hg.below h).1), rfl⟩

/-- As many steps as there are classes above a class find all of them. -/
private theorem ancestorsWithin_eq {n m : Nat} (hn : g.height id ≤ n) (hm : g.height id ≤ m) :
    g.ancestorsWithin n id = g.ancestorsWithin m id := by
  -- Heights fall along the chain, so both bounds outlast it.
  induction n generalizing id m with
  | zero =>
    -- Without steps allowed, there must be nothing above.
    cases m with
    | zero => rfl
    | succ m =>
      cases hs : g.superclass? id with
      | none => rw [ancestorsWithin, ancestorsWithin, hs]
      | some above =>
        have := ha.height_lt hg hs
        omega
  | succ n ih =>
    cases hs : g.superclass? id with
    -- At the top the search ends, whatever is allowed.
    | none => cases m <;> simp only [ancestorsWithin, hs]
    -- One step up, both bounds fall by one.
    | some above =>
      have := ha.height_lt hg hs
      cases m with
      | zero => omega
      | succ m =>
        simp only [ancestorsWithin, hs]
        rw [ih (by omega) (show g.height above ≤ m by omega)]

/-- Above a class stand its superclass and what is above that. -/
theorem ancestors_eq (h : g.superclass? id = some above) :
    g.ancestors id = above :: g.ancestors above := by
  -- There is a class above, so at least one step is allowed.
  have hlt := ha.height_lt hg h
  have hle := g.height_le_size id
  obtain ⟨n, hn⟩ : ∃ n, g.size = n + 1 := ⟨g.size - 1, by omega⟩
  have hstep : g.ancestorsWithin (n + 1) id = above :: g.ancestorsWithin n above := by
    -- One step finds the superclass, and the others are left for what is above it.
    simp only [ancestorsWithin, h]
  rw [ancestors, ancestors, hn, hstep,
    ha.ancestorsWithin_eq hg (show g.height above ≤ n by omega)
      (show g.height above ≤ n + 1 by omega)]

/-- What holds of a class whenever it holds of its superclass holds of every class. -/
theorem induction {motive : TypeId → Prop} (top : ∀ id, g.superclass? id = none → motive id)
    (step : ∀ id above, g.superclass? id = some above → motive above → motive id)
    (id : TypeId) : motive id := by
  induction hn : g.height id using Nat.strongRecOn generalizing id with
  | ind n ih =>
    cases hs : g.superclass? id with
    | none => exact top id hs
    | some above => exact step id above hs (ih _ (hn ▸ ha.height_lt hg hs) above rfl)

/-- The superclasses of a class are those that are reached from it step by step. -/
theorem mem_ancestors_iff {a : TypeId} : a ∈ g.ancestors id ↔ TransGen g.Below id a := by
  constructor
  -- What is found is reached, by going up from the class.
  · revert a
    induction id using ha.induction hg with
    | top id hs =>
      intro a h
      rw [ancestors_eq_nil hs] at h
      cases h
    | step id above hs ih =>
      intro a h
      rw [ha.ancestors_eq hg hs] at h
      cases List.mem_cons.1 h with
      | inl heq => exact heq ▸ .single hs
      | inr h => exact (ih h).head hs
  -- What is reached is found, by the first step of the way.
  · intro h
    induction h using TransGen.head_induction_on with
    | single hs =>
      rw [ha.ancestors_eq hg hs]
      exact List.mem_cons_self
    | head hs _ ih =>
      rw [ha.ancestors_eq hg hs]
      exact List.mem_cons_of_mem _ ih

end Acyclic

/-! ### Building keeps graphs without cycles -/

/-- A graph with no more superclasses than one without cycles has no cycles. -/
theorem Acyclic.mono (ha : g.Acyclic) (h : ∀ id above, g'.Below id above → g.Below id above) :
    g'.Acyclic :=
  fun id hid => ha id (TransGen.mono h _ _ hid)

/-- Where classes are put below others, a way up either avoids the new step or ends above it. -/
private theorem transGen_of_new_step {target top : TypeId}
    (h : ∀ id above, g'.Below id above → g.Below id above ∨ id = target ∧ above = top)
    {a b : TypeId} (hab : TransGen g'.Below a b) :
    TransGen g.Below a b ∨ ReflTransGen g.Below a target ∧ ReflTransGen g.Below top b := by
  induction hab with
  -- A way of one step is an old step or the new one.
  | single hstep =>
    cases h _ _ hstep with
    | inl hold => exact Or.inl (.single hold)
    | inr hnew =>
      obtain ⟨rfl, rfl⟩ := hnew
      exact Or.inr ⟨.refl, .refl⟩
  | tail _ hstep ih =>
    -- So is the last step of a longer way.
    cases h _ _ hstep with
    | inl hold =>
      cases ih with
      | inl ih => exact Or.inl (ih.tail hold)
      | inr ih => exact Or.inr ⟨ih.1, ih.2.tail hold⟩
    | inr hnew =>
      obtain ⟨rfl, rfl⟩ := hnew
      cases ih with
      | inl ih => exact Or.inr ⟨ih.to_reflTransGen, .refl⟩
      -- The way has come to the new step before; the loop in between is left out.
      | inr ih => exact Or.inr ⟨ih.1, .refl⟩

/-- The superclass of a class is the one that its body names. -/
theorem superclass?_eq_some {body : ClassBody} (hbody : g.classBody? id = some body) :
    g.superclass? id = body.superclass := by
  rw [superclass?, hbody]
  rfl

/-- Putting a type at the next place that names nothing above itself. -/
theorem Acyclic.push (ha : g.Acyclic) {t : TypeDescriptor}
    (parts : ∀ p ∈ t.kind.parts, p.index < g.size) (hparents : t.kind.parents = []) :
    (g.push t parts).Acyclic := by
  -- No new way up arises, because the new type names nothing.
  refine ha.mono fun id above h => ?_
  obtain ⟨body, hbody, hsuper⟩ := Option.bind_eq_some_iff.1 h
  -- A type that was there names what it named.
  by_cases hmem : id ∈ g.places
  · rw [classBody?_push_of_mem hmem] at hbody
    rw [Below, superclass?_eq_some hbody]
    exact hsuper
  · have hparent : above ∈ ((g.push t parts).kind id).parents := by
      rw [parents_eq hbody]
      exact List.mem_append_left _ (Option.mem_toList.2 hsuper)
    -- The new one names nothing, and nothing else is in the graph.
    by_cases hnext : id = g.next
    · rw [hnext, kind, descriptor_push_next, hparents] at hparent
      cases hparent
    · rw [kind_of_not_mem fun h => (mem_places_push.1 h).elim hmem hnext] at hparent
      cases hparent

/-- Changing a body without changing the superclass. -/
private theorem Acyclic.setBody_same (ha : g.Acyclic) {body body' : ClassBody}
    (hbody : g.classBody? id = some body) (hsuper : body'.superclass = body.superclass) :
    (g.setBody id body').Acyclic := by
  refine ha.mono fun x above h => ?_
  obtain ⟨b, hb, hb'⟩ := Option.bind_eq_some_iff.1 h
  -- Another class keeps its body, and this one its superclass.
  cases classBody?_setBody hb with
  | inl hold =>
    rw [Below, superclass?_eq_some hold]
    exact hb'
  | inr hnew =>
    obtain ⟨rfl, -, rfl⟩ := hnew
    rw [Below, superclass?_eq_some hbody, ← hsuper]
    exact hb'

/-- A superclass is refused if the class stands above it already. -/
private theorem Acyclic.setSuperclass (ha : g.Acyclic) (hg : g.Consistent)
    (h : g.setSuperclass id above = .ok g') : g'.Acyclic := by
  obtain ⟨body, hbody, -, hfree, rfl⟩ := setSuperclass_eq_ok.1 h
  rw [not_or, ha.mem_ancestors_iff hg] at hfree
  -- The only step that is new is the one to the new superclass.
  have hstep : ∀ x y, (g.setBody id { body with superclass := some above }).Below x y →
      g.Below x y ∨ x = id ∧ y = above := by
    intro x y hxy
    obtain ⟨b, hb, hb'⟩ := Option.bind_eq_some_iff.1 hxy
    -- Another class keeps its body, and the class itself has the new one.
    cases classBody?_setBody hb with
    | inl hold =>
      rw [Below, superclass?_eq_some hold]
      exact Or.inl hb'
    | inr hnew =>
      obtain ⟨rfl, -, rfl⟩ := hnew
      exact Or.inr ⟨rfl, (Option.some.inj hb').symm⟩
  intro x hx
  cases transGen_of_new_step hstep hx with
  -- The way does not use the new step.
  | inl hold => exact ha x hold
  | inr hnew =>
    -- The way from the new superclass back to the class was there before.
    have hback : ReflTransGen g.Below above id := hnew.2.trans hnew.1
    cases reflTransGen_iff_eq_or_transGen.1 hback with
    | inl heq => exact hfree.1 heq
    | inr hup => exact hfree.2 hup

/-- A declaration keeps a graph acyclic. -/
private theorem Acyclic.declare (ha : g.Acyclic) {t : TypeDescriptor} {parts}
    (hparents : t.kind.parents = []) (h : g.declare t parts = .ok (id, g')) : g'.Acyclic := by
  obtain ⟨-, -, rfl⟩ := declare_eq_ok.1 h
  exact ha.push _ hparents

/-- Sharing a type keeps a graph acyclic. -/
private theorem Acyclic.intern (ha : g.Acyclic) {t : TypeDescriptor}
    (hparents : t.kind.parents = []) : (g.intern t).2.Acyclic :=
  intern_induction ha fun parts _ => ha.push parts hparents

/-- No type of the prelude is above itself. -/
private theorem acyclic_prelude : prelude.Acyclic := by
  intro id h
  -- None of them has a superclass.
  have hnone : ∀ i < 32, prelude.superclass? ⟨i⟩ = none := by decide
  obtain ⟨above, hstep, -⟩ := TransGen.head'_iff.1 h
  have hmem : id ∈ prelude.places := by
    refine Decidable.byContradiction fun hmem => ?_
    rw [Below, superclass?, classBody?, kind_of_not_mem hmem] at hstep
    cases hstep
  rw [Below, hnone id.index (mem_places.1 hmem)] at hstep
  cases hstep

/-- No class is above itself in a graph that can be built. -/
theorem Built.acyclic (h : g.Built) : g.Acyclic := by
  -- Only a new superclass adds steps; the others keep them or put in a type without any.
  induction h with
  | prelude => exact acyclic_prelude
  | declareClass _ h ih => exact ih.declare rfl h
  | declareInterface _ h ih => exact ih.declare rfl h
  | declareLibraryClass _ h ih => exact ih.declare rfl h
  | declareEnum _ h ih => exact ih.declare rfl h
  | setSuperclass hb _ h ih => exact ih.setSuperclass hb.consistent h
  -- A new interface leaves the superclass as it is.
  | addInterface _ _ h ih =>
    obtain ⟨body, hbody, -, rfl⟩ := addInterface_eq_ok.1 h
    exact ih.setBody_same hbody rfl
  | setAbstract _ h ih =>
    obtain ⟨body, hbody, rfl⟩ := setAbstract_eq_ok.1 h
    exact ih.setBody_same hbody rfl
  | addField _ h ih =>
    obtain ⟨body, hbody, rfl⟩ := addField_eq_ok.1 h
    exact ih.setBody_same hbody rfl
  | array component _ ih => exact ih.intern rfl
  | parameterized _ h ih =>
    rcases parameterized_eq_ok.1 h with ⟨-, -, rfl⟩ | ⟨-, -, -, -, heq⟩
    · exact ih
    · rw [(Prod.mk.inj heq).2]
      exact ih.intern rfl

/-! ### Lineages -/

/-- A class behind the classes above it, topmost first. -/
def lineage (g : TypeGraph) (id : TypeId) : List TypeId := (id :: g.ancestors id).reverse

/-- The fields that make up an object of a class, inherited fields first. -/
def allFields (g : TypeGraph) (id : TypeId) : List Field :=
  (g.lineage id).flatMap g.serializableFields

/-- A class without a superclass is alone in its lineage. -/
theorem lineage_eq_singleton (h : g.superclass? id = none) : g.lineage id = [id] := by
  rw [lineage, ancestors_eq_nil h]
  rfl

namespace Built

variable (hg : g.Built)

include hg

/-- Above a class stand its superclass and what is above that. -/
theorem ancestors_eq (h : g.superclass? id = some above) :
    g.ancestors id = above :: g.ancestors above :=
  hg.acyclic.ancestors_eq hg.consistent h

/-- The lineage of a class is that of its superclass, and the class. -/
theorem lineage_eq (h : g.superclass? id = some above) :
    g.lineage id = g.lineage above ++ [id] := by
  rw [lineage, hg.ancestors_eq h, List.reverse_cons, lineage]

/-- No class stands twice in a lineage. -/
theorem nodup_lineage (id : TypeId) : (g.lineage id).Nodup := by
  rw [lineage, List.nodup_reverse]
  -- Up the chain, which does not come back to the class.
  induction id using hg.acyclic.induction hg.consistent with
  | top id hs =>
    rw [ancestors_eq_nil hs]
    exact List.nodup_singleton id
  | step id above hs ih =>
    refine List.nodup_cons.2 ⟨fun hmem => ?_, hg.ancestors_eq hs ▸ ih⟩
    exact hg.acyclic id ((hg.acyclic.mem_ancestors_iff hg.consistent).1 hmem)

end Built

end TypeGraph

end GraphCodec
