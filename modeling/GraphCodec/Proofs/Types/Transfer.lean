import GraphCodec.Proofs.Types.Renaming
import GraphCodec.Proofs.Types.Terms
import Mathlib.Data.List.Perm.Subperm

/-!
# Graphs with the same terms

Two graphs that can be built and have the same terms have their types at places that correspond
(`TypeGraph.Moves`).  If the types that are made of no others correspond in what they are, one graph
renames the other (`TypeGraph.Moves.renames`): the structural types follow, for their terms say what
they are made of.
-/

namespace GraphCodec

/-- What is made of no other types is renamed when it stays what it is apart from the bodies of
classes, and these are renamed. -/
theorem TypeKind.renames_of_bare {σ : TypeId → TypeId} {kind kind' : TypeKind}
    (hparts : kind.parts = []) (hbare : kind'.bare = kind.bare)
    (hbody : ∀ body body', kind.classBody? = some body → kind'.classBody? = some body' →
      body.Renames σ body') : kind.Renames σ kind' := by
  -- The kinds are the same up to bodies, so each is compared with itself.
  cases kind with
  | primitive p =>
    cases kind' <;> cases hbare
    exact .primitive p
  | boxed s =>
    cases kind' <;> cases hbare
    exact .boxed s
  | classType body =>
    cases kind' with
    | classType body' => exact .classType (hbody body body' rfl rfl)
    | _ => cases hbare
  | interfaceType body =>
    cases kind' with
    | interfaceType body' => exact .interfaceType (hbody body body' rfl rfl)
    | _ => cases hbare
  | enumType variants =>
    cases kind' <;> cases hbare
    exact .enumType variants
  -- What is made of others is excluded.
  | arrayType component => cases hparts
  | parameterized raw arguments => cases hparts

namespace TypeGraph

variable {g g' : TypeGraph} {σ : TypeId → TypeId} {id : TypeId}

private theorem length_places (g : TypeGraph) : g.places.length = g.size := by
  rw [places, List.length_map, List.length_range]

/-- A graph whose terms another one has too has no more types. -/
private theorem Built.size_le (hg : g.Built) (h : ∀ t, g.HasTerm t → g'.HasTerm t) :
    g.size ≤ g'.size := by
  -- Its terms are different, and each is one of the other graph.
  have hnodup : (g.places.map g.term).Nodup :=
    g.nodup_places.map_on fun a ha b hb => hg.term_injective ha hb
  have hsub : g.places.map g.term ⊆ g'.places.map g'.term := fun t ht => by
    obtain ⟨id, hid, hterm⟩ := List.mem_map.1 ht
    exact List.mem_map.2 (h t ⟨id, hid, hterm⟩)
  have hle := (List.subperm_of_subset hnodup hsub).length_le
  rwa [List.length_map, List.length_map, length_places, length_places] at hle

/-- Graphs with the same terms have as many types. -/
theorem Built.size_eq (hg : g.Built) (hg' : g'.Built) (h : ∀ t, g.HasTerm t ↔ g'.HasTerm t) :
    g'.size = g.size :=
  Nat.le_antisymm (hg'.size_le fun t => (h t).2) (hg.size_le fun t => (h t).1)

/-- Whether places of one graph go to those of the types with the same terms in another one. -/
structure Moves (σ : TypeId → TypeId) (g g' : TypeGraph) : Prop where
  mem : ∀ id ∈ g.places, σ id ∈ g'.places
  term : ∀ id ∈ g.places, g'.term (σ id) = g.term id
  outside : ∀ id, id ∉ g.places → σ id = id

/-- The types of a graph move to a graph that has their terms. -/
theorem exists_moves (h : ∀ t, g.HasTerm t → g'.HasTerm t) : ∃ σ, Moves σ g g' := by
  -- A type moves to a place of its term, and outside the graph nothing moves.
  have hplace : ∀ id, ∃ id', (id ∈ g.places → id' ∈ g'.places ∧ g'.term id' = g.term id) ∧
      (id ∉ g.places → id' = id) := by
    intro id
    by_cases hid : id ∈ g.places
    · obtain ⟨id', hid', hterm⟩ := h _ ⟨id, hid, rfl⟩
      exact ⟨id', fun _ => ⟨hid', hterm⟩, fun hnot => absurd hid hnot⟩
    · exact ⟨id, fun hmem => absurd hmem hid, fun _ => rfl⟩
  choose σ hσ using hplace
  exact ⟨σ, fun id hid => ((hσ id).1 hid).1, fun id hid => ((hσ id).1 hid).2, fun id => (hσ id).2⟩

/-- What corresponds in two graphs that are built has the same term. -/
theorem Moves.eq_of_term (hσ : Moves σ g g') (hg' : g'.Built) {id' : TypeId} (hid : id ∈ g.places)
    (hid' : id' ∈ g'.places) (hterm : g'.term id' = g.term id) : σ id = id' :=
  hg'.term_injective (hσ.mem id hid) hid' ((hσ.term id hid).trans hterm.symm)

namespace Moves

variable (hσ : Moves σ g g') (hg : g.Built) (hg' : g'.Built)
  (hterms : ∀ t, g.HasTerm t ↔ g'.HasTerm t)

include hσ hg hg' hterms

/-- What moves to a place of the other graph is a place of the first one. -/
private theorem mem_places (id : TypeId) : σ id ∈ g'.places ↔ id ∈ g.places := by
  refine ⟨fun hid => Decidable.byContradiction fun hnot => hnot ?_, hσ.mem id⟩
  -- Both graphs are of one size, so outside one is outside the other.
  rwa [hσ.outside id hnot, TypeGraph.mem_places, hg.size_eq hg' hterms,
    ← TypeGraph.mem_places] at hid

/-- No two places move to one, and every place is reached. -/
theorem bijective : Function.Bijective σ := by
  -- Places go to places and nothing else moves, so these two cases do not meet.
  constructor
  · intro a b hab
    -- Places with one term are the same.
    by_cases ha : a ∈ g.places
    · have hb : b ∈ g.places := by
        rw [← hσ.mem_places hg hg' hterms, ← hab]
        exact hσ.mem a ha
      refine hg.term_injective ha hb ?_
      rw [← hσ.term a ha, hab, hσ.term b hb]
    -- Outside the graph both stay where they are.
    · have hb : b ∉ g.places := by
        rw [← hσ.mem_places hg hg' hterms, ← hab, hσ.mem_places hg hg' hterms]
        exact ha
      rw [← hσ.outside a ha, hab, hσ.outside b hb]
  · intro b
    -- The other graph has no terms but those of the first one.
    by_cases hb : b ∈ g'.places
    · obtain ⟨a, ha, hterm⟩ := (hterms _).2 ⟨b, hb, rfl⟩
      exact ⟨a, hσ.eq_of_term hg' ha hb hterm.symm⟩
    · refine ⟨b, hσ.outside b ?_⟩
      rwa [TypeGraph.mem_places, ← hg.size_eq hg' hterms, ← TypeGraph.mem_places]

omit hg hterms in
/-- A structural type is made of the types that its parts go to. -/
theorem kind_cases (hid : id ∈ g.places) (hparts : (g.kind id).parts ≠ []) :
    (∃ component ∈ g.places, g.kind id = .arrayType component ∧
      g'.kind (σ id) = .arrayType (σ component)) ∨
    ∃ raw ∈ g.places, ∃ arguments : List TypeId, (∀ a ∈ arguments, a ∈ g.places) ∧
      g.kind id = .parameterized raw arguments ∧
      g'.kind (σ id) = .parameterized (σ raw) (arguments.map σ) := by
  have hmem : ∀ p ∈ (g.kind id).parts, p ∈ g.places := fun p => mem_places_of_mem_parts hid
  have hmem' : ∀ p ∈ (g'.kind (σ id)).parts, p ∈ g'.places := fun p =>
    mem_places_of_mem_parts (hσ.mem id hid)
  have hterm := hσ.term id hid
  -- The terms of a type and of where it goes agree, and they show what the types are made of.
  rcases g.kind_of_term id with ⟨hnil, -⟩ | ⟨c, hk, ht⟩ | ⟨raw, arguments, hk, ht⟩
  · exact absurd hnil hparts
  -- An array: what its component has moved to is the component of the other one.
  · obtain ⟨c', hk', hc'⟩ := kind_of_term_eq_array (hterm.trans ht)
    rw [hk] at hmem
    rw [hk'] at hmem'
    have hc := hmem c List.mem_cons_self
    exact Or.inl ⟨c, hc, hk, by rw [hk', hσ.eq_of_term hg' hc (hmem' c' List.mem_cons_self) hc']⟩
  -- An application: the same for the class and each of the arguments.
  · obtain ⟨raw', arguments', hk', hraw', harguments'⟩ := kind_of_term_eq_applied (hterm.trans ht)
    rw [hk] at hmem
    rw [hk'] at hmem'
    have hraw := hmem raw List.mem_cons_self
    have harguments : ∀ a ∈ arguments, a ∈ g.places := fun a ha =>
      hmem a (List.mem_cons_of_mem _ ha)
    -- The arguments have the same terms in order, and a term belongs to one place.
    have hmap : arguments.map σ = arguments' := by
      refine List.eq_of_map_eq (f := g'.term) (fun p hp q hq => ?_) ?_
      · obtain ⟨a, ha, rfl⟩ := List.mem_map.1 hp
        exact hg'.term_injective (hσ.mem a (harguments a ha)) (hmem' q (List.mem_cons_of_mem _ hq))
      · rw [harguments', List.map_map]
        exact List.map_congr_left fun a ha => hσ.term a (harguments a ha)
    exact Or.inr ⟨raw, hraw, arguments, harguments, hk,
      by rw [hk', hmap, hσ.eq_of_term hg' hraw (hmem' raw' List.mem_cons_self) hraw']⟩

omit hterms in
/-- The types correspond in their names if those that are made of no others do. -/
private theorem name (hflat : ∀ id ∈ g.places, (g.kind id).parts = [] → g'.name (σ id) = g.name id)
    (hid : id ∈ g.places) : g'.name (σ id) = g.name id := by
  -- The name of a structural type is made of the names of types in front of it.
  induction hn : id.index using Nat.strongRecOn generalizing id with
  | ind n ih =>
    have hpart : ∀ p ∈ (g.kind id).parts, g'.name (σ p) = g.name p := fun p hp =>
      ih p.index (hn ▸ index_lt_of_mem_parts hp) (mem_places_of_mem_parts hid hp) rfl
    by_cases hparts : (g.kind id).parts = []
    · exact hflat id hid hparts
    rcases hσ.kind_cases hg' hid hparts with ⟨c, -, hk, hk'⟩ | ⟨raw, -, arguments, -, hk, hk'⟩
    · rw [hk] at hpart
      rw [hg.shared.name id _ (by rw [hk]; rfl), hg'.shared.name (σ id) _ (by rw [hk']; rfl),
        hpart c List.mem_cons_self]
    · rw [hk] at hpart
      have hnames : (arguments.map σ).map g'.name = arguments.map g.name := by
        rw [List.map_map]
        exact List.map_congr_left fun a ha => hpart a (List.mem_cons_of_mem _ ha)
      rw [hg.shared.name id _ (by rw [hk]; rfl), hg'.shared.name (σ id) _ (by rw [hk']; rfl),
        hpart raw List.mem_cons_self, hnames]

/-- Graphs rename each other if they have the same terms and the types that are made of no others
correspond. -/
theorem renames (hprelude : ∀ id, id.isPrelude → id ∈ g.places ∧ (g.kind id).parts = [])
    (hname : ∀ id ∈ g.places, (g.kind id).parts = [] → g'.name (σ id) = g.name id)
    (hkind : ∀ id ∈ g.places, (g.kind id).parts = [] → (g.kind id).Renames σ (g'.kind (σ id))) :
    Renames σ g g' where
  bijective := hσ.bijective hg hg' hterms
  size := hg.size_eq hg' hterms
  mem_places := hσ.mem_places hg hg' hterms
  -- A type of the prelude has its place as its term.
  fixed := fun id hid => by
    obtain ⟨hmem, hparts⟩ := hprelude id hid
    have hterm : g'.term (σ id) = .standard id := by
      rw [hσ.term id hmem, term_of_parts hparts, hid]
      rfl
    exact (parts_of_term_eq_standard hterm).2.2
  name := fun id => by
    -- Inside the graph the types correspond, and outside both are reserved.
    by_cases hid : id ∈ g.places
    · exact hσ.name hg hg' hname hid
    · have hid' : σ id ∉ g'.places := by rwa [hσ.mem_places hg hg' hterms]
      rw [TypeGraph.name, descriptor_of_not_mem hid', TypeGraph.name, descriptor_of_not_mem hid]
  kind := fun id => by
    by_cases hid : id ∈ g.places
    · by_cases hparts : (g.kind id).parts = []
      · exact hkind id hid hparts
      -- A structural type has moved with its parts.
      · rcases hσ.kind_cases hg' hid hparts with ⟨c, -, hk, hk'⟩ | ⟨raw, -, arguments, -, hk, hk'⟩
        · rw [hk, hk']
          exact .arrayType c
        · rw [hk, hk']
          exact .parameterized raw arguments
    · have hid' : σ id ∉ g'.places := by rwa [hσ.mem_places hg hg' hterms]
      rw [kind_of_not_mem hid, kind_of_not_mem hid']
      exact .classType ⟨rfl, rfl, rfl, by simp [ClassBody.library], Or.inl rfl⟩

end Moves

end TypeGraph

end GraphCodec
