import GraphCodec.Proofs.Codec.Closed
import GraphCodec.Proofs.Codec.Linking
import GraphCodec.Proofs.Types.Lineage

/-!
# Superclasses in codec tables

A codec names the superclass whose codec handles the inherited fields.  Where no class is above
itself (`CodecTable.Acyclic`), the classes above a class are some of the other classes of the table,
and a superclass has fewer of them (`CodecTable.Acyclic.height_lt`).  A table has no cycle if the
plans it was linked from have none (`CodecTable.acyclic_ofPlans`), since it has no codec that was
not linked.
-/

namespace GraphCodec

open Relation

/-- Whether some plans put a class right below another. -/
def CodecPlan.Below (plans : List CodecPlan) (name above : String) : Prop :=
  ∃ p, .object p ∈ plans ∧ p.typeName = name ∧ p.superclass = some above

/-- Whether some plans put no class above itself. -/
def CodecPlan.Acyclic (plans : List CodecPlan) : Prop :=
  ∀ name, ¬TransGen (CodecPlan.Below plans) name name

/-- The superclass that a plan names. -/
def CodecPlan.superclass? : CodecPlan → Option String
  | .object p => p.superclass
  | .enum _ => none

/-- No class is above itself if every superclass has a lower rank than its class. -/
theorem CodecPlan.acyclic_of_rank {plans : List CodecPlan} (rank : String → Nat)
    (h : ∀ plan ∈ plans, ∀ above ∈ plan.superclass?, rank above < rank plan.typeName) :
    CodecPlan.Acyclic plans := by
  -- One step up lowers the rank, and so does any number of steps.
  have hbelow : ∀ name above, CodecPlan.Below plans name above → rank above < rank name := by
    rintro name above ⟨p, hp, rfl, hsuper⟩
    exact h (.object p) hp above hsuper
  have hlt : ∀ name above, TransGen (CodecPlan.Below plans) name above →
      rank above < rank name := by
    intro name above hup
    induction hup with
    | single hfirst => exact hbelow _ _ hfirst
    | tail _ hlast ih => exact Nat.lt_trans (hbelow _ _ hlast) ih
  exact fun name hcycle => Nat.lt_irrefl _ (hlt name name hcycle)

namespace CodecTable

variable {t : CodecTable} {name above : String} {p q : ObjectPlan}

/-- Whether a table puts a class right below another. -/
def Below (t : CodecTable) (name above : String) : Prop :=
  ∃ p, t.object? name = some p ∧ p.superclass = some above

/-- Whether a table puts no class above itself. -/
def Acyclic (t : CodecTable) : Prop := ∀ name, ¬TransGen t.Below name name

theorem typeName_of_object? (h : t.object? name = some p) : p.typeName = name := by
  simpa using List.find?_some h

/-- A table of plans has a cycle only if the plans have one. -/
theorem acyclic_ofPlans {plans : List CodecPlan} (h : CodecPlan.Acyclic plans) (tag : String) :
    (ofPlans tag plans).Acyclic := by
  intro name hname
  refine h name (TransGen.mono (fun a b hab => ?_) name name hname)
  obtain ⟨p, hp, hsuper⟩ := hab
  exact ⟨p, mem_objects_ofPlans (mem_objects_of_object? hp), typeName_of_object? hp, hsuper⟩

/-- On a cycle a class has a superclass with a codec, which is on a cycle too. -/
theorem exists_above_of_cycle (h : TransGen t.Below name name) :
    ∃ p above q, t.object? name = some p ∧ p.superclass = some above ∧
      t.object? above = some q ∧ TransGen t.Below above above := by
  obtain ⟨above, ⟨p, hp, hsuper⟩, hback⟩ := TransGen.head'_iff.1 h
  have hcycle : TransGen t.Below above above :=
    TransGen.trans_right hback (.single ⟨p, hp, hsuper⟩)
  obtain ⟨_, ⟨q, hq, -⟩, -⟩ := TransGen.head'_iff.1 hcycle
  exact ⟨p, above, q, hp, hsuper, hq, hcycle⟩

open Classical in
/-- The classes of a table that are above a class. -/
noncomputable def namesAbove (t : CodecTable) (name : String) : Finset String :=
  (t.objects.map (·.typeName)).toFinset.filter fun above => TransGen t.Below name above

/-- The number of classes above a class. -/
noncomputable def height (t : CodecTable) (name : String) : Nat := (t.namesAbove name).card

/-- The names above a name are those of the table's classes that are reached from it. -/
private theorem mem_namesAbove :
    above ∈ t.namesAbove name ↔
      above ∈ (t.objects.map (·.typeName)).toFinset ∧ TransGen t.Below name above := by
  simp only [namesAbove, Finset.mem_filter]

/-- The name of a codec is one of the names of the table. -/
private theorem mem_typeNames (h : t.object? name = some p) :
    name ∈ (t.objects.map (·.typeName)).toFinset :=
  List.mem_toFinset.2 (List.mem_map.2 ⟨p, mem_objects_of_object? h, typeName_of_object? h⟩)

namespace Acyclic

variable (ha : t.Acyclic)

include ha

/-- A class of a table is not among the classes above it. -/
theorem height_lt_length (h : t.object? name = some p) : t.height name < t.objects.length := by
  have hsub : t.namesAbove name ⊆ (t.objects.map (·.typeName)).toFinset :=
    fun above habove => (mem_namesAbove.1 habove).1
  -- The class itself is one of the names of the table but not above itself.
  have hnot : name ∉ t.namesAbove name := fun hself => ha name (mem_namesAbove.1 hself).2
  calc t.height name
      < (t.objects.map (·.typeName)).toFinset.card :=
        Finset.card_lt_card ((Finset.ssubset_iff_of_subset hsub).2 ⟨name, mem_typeNames h, hnot⟩)
    _ ≤ (t.objects.map (·.typeName)).length := List.toFinset_card_le _
    _ = t.objects.length := List.length_map _

/-- A superclass has fewer classes above it, because it is not above itself. -/
theorem height_lt (h : t.Below name above) (hq : t.object? above = some q) :
    t.height above < t.height name :=
  card_reached_lt id h (ha above) ⟨above, mem_typeNames hq, rfl⟩

end Acyclic

end CodecTable

end GraphCodec
