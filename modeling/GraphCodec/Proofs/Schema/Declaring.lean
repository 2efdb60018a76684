import GraphCodec.Proofs.Schema.Linking

/-!
# What declaring does

The types of a schema are declared before anything that speaks of them is looked at.  That succeeds
when their names are told apart from each other and from those of the types that every graph starts
with (`Schema.exists_declareTypes`), and yields a graph that holds what the declarations describe,
behind the types that every graph starts with (`Schema.Start`).
-/

namespace GraphCodec

namespace TypeDecl

/-- The type that a declaration puts into a graph. -/
def descriptor : TypeDecl → TypeDescriptor
  | classType decl => ⟨decl.name, .classType (.declared decl.isAbstract)⟩
  | interfaceType decl => ⟨decl.name, .interfaceType (.declared true)⟩
  | enumType decl => ⟨decl.name, .enumType decl.variants⟩
  | libraryType name => ⟨name, .classType (.library false 0)⟩

theorem name_descriptor (decl : TypeDecl) : decl.descriptor.name = decl.name := by
  cases decl <;> rfl

theorem parts_descriptor (decl : TypeDecl) : decl.descriptor.kind.parts = [] := by
  cases decl <;> rfl

end TypeDecl

open TypeGraph

variable {g g' : TypeGraph} {id : TypeId} {decl : TypeDecl}

/-! ### Names that are taken -/

/-- Nothing is found under a name if no type that is not reserved has it. -/
private theorem TypeGraph.lookup?_eq_none {name : String} :
    g.lookup? name = none ↔ ∀ id ∈ g.places, id.isReserved = false → g.name id ≠ name := by
  refine ⟨fun h id hid hres => name_ne_of_lookup?_eq_none h hid hres, fun h => ?_⟩
  refine List.find?_eq_none.2 fun id hid => ?_
  rw [Bool.and_eq_true, Bool.not_eq_true', beq_iff_eq, not_and]
  exact h id (List.mem_reverse.1 hid)

/-- A name is free behind a new type if it was free and is another one. -/
private theorem TypeGraph.lookup?_push_eq_none {t : TypeDescriptor}
    {parts : ∀ p ∈ t.kind.parts, p.index < g.size} (hg : TypeId.firstDeclared ≤ g.size)
    {name : String} :
    (g.push t parts).lookup? name = none ↔ g.lookup? name = none ∧ t.name ≠ name := by
  have hnext : g.next.isReserved = false := TypeId.isReserved_eq_false.2 (Or.inr hg)
  have hname : (g.push t parts).name g.next = t.name := by rw [TypeGraph.name, descriptor_push_next]
  simp only [lookup?_eq_none, mem_places_push, or_imp, forall_and, forall_eq, hnext, hname,
    forall_const]
  refine and_congr_left' (forall₂_congr fun id hid => ?_)
  rw [name_push_of_mem hid]

namespace Schema

/-! ### Declaring one type -/

/-- Each kind of type is declared by its descriptor. -/
private theorem declareType_eq (g : TypeGraph) (decl : TypeDecl) :
    declareType g decl = g.declare decl.descriptor decl.parts_descriptor := by
  cases decl <;> rfl

/-- A type is declared at the next place if its name is free. -/
private theorem declareType_eq_ok : declareType g decl = .ok (id, g') ↔ g.lookup? decl.name = none ∧
    id = g.next ∧ g' = g.push decl.descriptor (by simp [decl.parts_descriptor]) := by
  rw [declareType_eq, declare_eq_ok, decl.name_descriptor]

/-! ### Declaring all types -/

/-- Types can be declared when their names are free and told apart. -/
theorem exists_declareTypes (hg : TypeId.firstDeclared ≤ g.size) {decls : List TypeDecl} :
    (∃ ids g', declareTypes g decls = .ok (ids, g')) ↔
      (∀ decl ∈ decls, g.lookup? decl.name = none) ∧ (decls.map (·.name)).Nodup := by
  induction decls generalizing g with
  | nil => simp [declareTypes]
  | cons decl rest ih =>
    have hstep : (∃ ids g', declareTypes g (decl :: rest) = .ok (ids, g')) ↔
        g.lookup? decl.name = none ∧ ∃ ids g', declareTypes
          (g.push decl.descriptor (by simp [decl.parts_descriptor])) rest = .ok (ids, g') := by
      simp only [declareTypes, Except.bind_eq_ok, Prod.exists, declareType_eq_ok]
      constructor
      · rintro ⟨_, _, _, _, ⟨hfree, rfl, rfl⟩, ids, g₂, hrest, -⟩
        exact ⟨hfree, ids, g₂, hrest⟩
      · rintro ⟨hfree, ids, g₂, hrest⟩
        exact ⟨_, _, _, _, ⟨hfree, rfl, rfl⟩, ids, g₂, hrest, rfl⟩
    -- The names of the rest must be free behind the first type, so they also differ from its name.
    rw [hstep, ih (by rw [size_push]; omega)]
    simp only [lookup?_push_eq_none hg, decl.name_descriptor, List.forall_mem_cons, List.map_cons,
      List.nodup_cons, List.mem_map, not_exists, not_and, forall_and]
    tauto

/-- What declaring types puts behind the types that were there. -/
structure Appended (g : TypeGraph) (decls : List TypeDecl) (ids : List TypeId) (g' : TypeGraph) :
    Prop where
  mem_places : ∀ id, id ∈ g'.places ↔ id ∈ g.places ∨ id ∈ ids
  old : ∀ id ∈ g.places, g'.descriptor id = g.descriptor id
  new : ∀ id ∈ ids, id ∉ g.places
  nodup : ids.Nodup
  descriptors : List.Forall₂ (fun decl id => g'.descriptor id = decl.descriptor) decls ids

/-- What is declared stands behind what was there, in the order of the declarations. -/
private theorem appended_of_declareTypes {decls : List TypeDecl} {ids : List TypeId}
    (h : declareTypes g decls = .ok (ids, g')) : Appended g decls ids g' := by
  induction decls generalizing g ids with
  | nil =>
    cases h
    exact ⟨by simp, fun _ _ => rfl, by simp, .nil, .nil⟩
  | cons decl rest ih =>
    unfold declareTypes at h
    obtain ⟨⟨id, g₁⟩, hfirst, h⟩ := Except.bind_eq_ok.1 h
    obtain ⟨⟨ids', g₂⟩, hrest, h⟩ := Except.bind_eq_ok.1 h
    cases h
    obtain ⟨-, rfl, rfl⟩ := declareType_eq_ok.1 hfirst
    have hall := ih hrest
    have hnext : g.next ∈ (g.push decl.descriptor (by simp [decl.parts_descriptor])).places :=
      mem_places_push.2 (Or.inr rfl)
    -- The first type is at the next place, and the others follow.
    refine ⟨fun x => ?_, fun x hx => ?_, fun x hx => ?_, ?_, .cons ?_ hall.descriptors⟩
    · rw [hall.mem_places, mem_places_push, List.mem_cons, or_assoc]
    · rw [hall.old x (mem_places_push.2 (Or.inl hx)), descriptor_push_of_mem hx]
    · rcases List.mem_cons.1 hx with rfl | hx
      · exact fun hmem => Nat.lt_irrefl _ (TypeGraph.mem_places.1 hmem)
      · exact fun hmem => hall.new x hx (mem_places_push.2 (Or.inl hmem))
    · exact List.nodup_cons.2 ⟨fun hmem => hall.new _ hmem hnext, hall.nodup⟩
    · rw [hall.old _ hnext, descriptor_push_next]

/-! ### The graph in which linking starts -/

/-- What holds of the graph in which the types of a schema have been declared at some places. -/
structure Start (s : Schema) (ids : List TypeId) (g : TypeGraph) : Prop where
  built : g.Built
  prelude : ∀ id, id.isPrelude → id ∈ g.places ∧ g.descriptor id = TypeGraph.prelude.descriptor id
  mem_places : ∀ id ∈ g.places, id.isPrelude ∨ id ∈ ids
  nodup : ids.Nodup
  length : s.types.length = ids.length
  /-- A declared type stands at its place. -/
  declared : ∀ decl id, (decl, id) ∈ s.types.zip ids →
    id ∈ g.places ∧ id.isPrelude = false ∧ g.descriptor id = decl.descriptor

/-- The places of the first graph are those of the prelude. -/
private theorem mem_places_prelude : id ∈ TypeGraph.prelude.places ↔ id.isPrelude := by
  rw [TypeGraph.mem_places, TypeId.isPrelude, decide_eq_true_eq]
  exact Iff.rfl

/-- Declaring the types of a schema yields the graph that linking starts with. -/
theorem start_of_declareTypes {s : Schema} {ids : List TypeId}
    (h : declareTypes .prelude s.types = .ok (ids, g)) : Start s ids g := by
  have happ := appended_of_declareTypes h
  refine ⟨(keeps_declareTypes h).1.built .prelude, fun id hid => ?_, fun id hid => ?_, happ.nodup,
    happ.descriptors.length_eq, fun decl id hmem => ?_⟩
  -- What every graph starts with stays as it is.
  · have hmem := mem_places_prelude.2 hid
    exact ⟨(happ.mem_places id).2 (Or.inl hmem), happ.old id hmem⟩
  · exact ((happ.mem_places id).1 hid).imp_left mem_places_prelude.1
  -- Each declaration has its place, which is none of the prelude.
  · have hid : id ∈ ids := (List.of_mem_zip hmem).2
    refine ⟨(happ.mem_places id).2 (Or.inr hid), ?_, List.forall₂_zip happ.descriptors hmem⟩
    rw [Bool.eq_false_iff]
    exact fun hprelude => happ.new id hid (mem_places_prelude.2 hprelude)

private theorem superclass?_prelude : ∀ i < 32, TypeGraph.prelude.superclass? ⟨i⟩ = none := by
  decide

namespace Start

variable {s : Schema} {ids : List TypeId} (h : Start s ids g)

include h

theorem map_snd_zip : (s.types.zip ids).map (·.2) = ids :=
  List.map_snd_zip (Nat.le_of_eq h.length.symm)

/-- A type is one that every graph starts with or one that is declared. -/
theorem cases (hid : id ∈ g.places) :
    id.isPrelude ∨ ∃ decl, (decl, id) ∈ s.types.zip ids := by
  refine (h.mem_places id hid).imp_right fun hmem => ?_
  rw [← h.map_snd_zip] at hmem
  obtain ⟨⟨decl, _⟩, hpair, rfl⟩ := List.mem_map.1 hmem
  exact ⟨decl, hpair⟩

/-- A type that is declared has a place. -/
theorem exists_place (hdecl : decl ∈ s.types) : ∃ id, (decl, id) ∈ s.types.zip ids := by
  rw [← List.map_fst_zip (Nat.le_of_eq h.length)] at hdecl
  obtain ⟨⟨_, id⟩, hpair, rfl⟩ := List.mem_map.1 hdecl
  exact ⟨id, hpair⟩

/-- No type is made of others yet. -/
theorem parts (hid : id ∈ g.places) : (g.kind id).parts = [] := by
  rcases h.cases hid with hprelude | ⟨decl, hpair⟩
  · rw [kind, (h.prelude id hprelude).2]
    exact parts_prelude id
  · rw [kind, (h.declared decl id hpair).2.2, decl.parts_descriptor]

theorem term_of_isPrelude (hid : id.isPrelude) : g.term id = .standard id := by
  rw [term_of_parts (h.parts (h.prelude id hid).1), if_pos hid]

/-- The declared type at a place is known by its name. -/
theorem term (hpair : (decl, id) ∈ s.types.zip ids) : g.term id = .declared decl.name := by
  obtain ⟨hid, hprelude, hdesc⟩ := h.declared decl id hpair
  rw [term_of_parts (h.parts hid), hprelude, TypeGraph.name, hdesc, decl.name_descriptor]
  rfl

/-- No class has a superclass yet. -/
private theorem superclass?_eq_none (id : TypeId) : g.superclass? id = none := by
  by_cases hid : id ∈ g.places
  -- The class is one of the prelude or has just been declared.
  · rcases h.cases hid with hprelude | ⟨decl, hpair⟩
    · have hstart := superclass?_prelude id.index (of_decide_eq_true hprelude)
      unfold superclass? classBody? kind at hstart ⊢
      rw [(h.prelude id hprelude).2]
      exact hstart
    · rw [superclass?, classBody?, kind, (h.declared decl id hpair).2.2]
      cases decl <;> rfl
  · rw [superclass?, classBody?, kind_of_not_mem hid]
    rfl

/-- Linking starts with the graph of the declared types. -/
theorem stage : Stage s g g where
  base := h.built
  built := h.built
  carries := .refl g
  new := fun _ hid hnot => absurd hid hnot
  above := fun id _ hbelow => by
    rw [Below, h.superclass?_eq_none] at hbelow
    cases hbelow

/-- A declared class has nothing in its body yet. -/
theorem unlinked (hpair : (decl, id) ∈ s.types.zip ids) {d : ClassDecl}
    (hd : decl.classDecl? = some d) : Unlinked s g d id := by
  obtain ⟨hmem, -, hdesc⟩ := h.declared decl id hpair
  have hdecl : decl ∈ s.types := (List.of_mem_zip hpair).1
  refine ⟨List.mem_filterMap.2 ⟨decl, hdecl, hd⟩, hmem, ?_, ?_⟩
  -- What is declared is known by its name.
  · rw [h.term hpair]
    cases decl <;> cases hd <;> rfl
  · rw [classBody?, kind, hdesc]
    cases decl <;> cases hd <;> exact ⟨_, rfl, rfl, rfl, rfl⟩

end Start

end Schema

end GraphCodec
