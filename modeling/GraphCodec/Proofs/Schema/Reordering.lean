import GraphCodec.Example.Stock
import GraphCodec.Proofs.Generation.Renaming
import GraphCodec.Proofs.Schema.Loading
import GraphCodec.Proofs.Types.Transfer

/-!
# The order of declarations

The order in which the types of a schema are declared does not matter, nor does that of the fields
of a class and of its interfaces (`Schema.Reordered`).  Such schemas are loaded into graphs with the
same types at other places, so one of them loads if the other does, and both generate the same
(`Schema.Reordered.generateSchema_eq`).
-/

namespace GraphCodec

/-! ### Reordered declarations -/

/-- Whether a class is declared in the same way with its fields and interfaces in another order.
Fields may change places if their names tell them apart; interfaces may also be repeated. -/
structure ClassDecl.Reordered (d d' : ClassDecl) : Prop where
  name : d'.name = d.name
  isAbstract : d'.isAbstract = d.isAbstract
  superclass : d'.superclass = d.superclass
  interfaces : ∀ source, source ∈ d'.interfaces ↔ source ∈ d.interfaces
  fields : d'.fields = d.fields ∨ d.fields.Perm d'.fields ∧ (d.fields.map (·.name)).Nodup

/-- Whether a type is declared in the same way, apart from the order of fields and interfaces. -/
inductive TypeDecl.Reordered : TypeDecl → TypeDecl → Prop where
  | classType {d d' : ClassDecl} : d.Reordered d' → Reordered (.classType d) (.classType d')
  | interfaceType {d d' : ClassDecl} :
    d.Reordered d' → Reordered (.interfaceType d) (.interfaceType d')
  | enumType (decl : EnumDecl) : Reordered (.enumType decl) (.enumType decl)
  | libraryType (name : String) : Reordered (.libraryType name) (.libraryType name)

/-- Whether a schema is another one with its types, and their fields and interfaces, in another
order.  Its roots and the variants of its enums keep their order. -/
structure Schema.Reordered (s s' : Schema) : Prop where
  roots : s'.roots = s.roots
  types : ∃ types, s.types.Perm types ∧ List.Forall₂ TypeDecl.Reordered types s'.types

/-- Declarations in another order can be put back, since a permutation and the absence of repeated
names hold both ways. -/
private theorem ClassDecl.Reordered.symm {d d' : ClassDecl} (h : d.Reordered d') :
    d'.Reordered d where
  name := h.name.symm
  isAbstract := h.isAbstract.symm
  superclass := h.superclass.symm
  interfaces := fun source => (h.interfaces source).symm
  fields := h.fields.imp Eq.symm fun ⟨hperm, hnodup⟩ =>
    ⟨hperm.symm, (hperm.map _).nodup_iff.1 hnodup⟩

namespace TypeDecl.Reordered

variable {decl decl' : TypeDecl} (h : decl.Reordered decl')

include h

/-- What is declared in another order can be put back. -/
private theorem symm : decl'.Reordered decl := by
  cases h with
  | classType hd => exact .classType hd.symm
  | interfaceType hd => exact .interfaceType hd.symm
  | enumType decl => exact .enumType decl
  | libraryType name => exact .libraryType name

/-- What is declared without superclasses, interfaces and fields stays the same. -/
theorem descriptor_eq : decl'.descriptor = decl.descriptor := by
  cases h with
  | classType hd => rw [descriptor, descriptor, hd.name, hd.isAbstract]
  | interfaceType hd => rw [descriptor, descriptor, hd.name]
  | enumType decl => rfl
  | libraryType name => rfl

/-- A declaration keeps its name when its fields and interfaces change places. -/
theorem name_eq : decl'.name = decl.name := by
  -- The descriptor of the type that is declared holds the name.
  rw [← decl'.name_descriptor, h.descriptor_eq, decl.name_descriptor]

/-- A declaration of a class is one of a class in the other order as well. -/
private theorem exists_classDecl {d : ClassDecl} (hd : decl.classDecl? = some d) :
    ∃ d', decl'.classDecl? = some d' ∧ d.Reordered d' := by
  cases h with
  | classType hd' =>
    cases hd
    exact ⟨_, rfl, hd'⟩
  | interfaceType hd' =>
    cases hd
    exact ⟨_, rfl, hd'⟩
  | enumType decl => cases hd
  | libraryType name => cases hd

end TypeDecl.Reordered

/-- The order of the interfaces does not matter for what is a parent of a class. -/
private theorem ClassDecl.Reordered.mem_parents {d d' : ClassDecl} (h : d.Reordered d')
    {source : String} :
    source ∈ d'.parents ↔ source ∈ d.parents := by
  rw [parents, parents, List.mem_append, List.mem_append, h.superclass, h.interfaces]

/-- The order of the fields does not matter for what is a field of a class. -/
private theorem ClassDecl.Reordered.mem_fields {d d' : ClassDecl} (h : d.Reordered d')
    {field : FieldDecl} :
    field ∈ d'.fields ↔ field ∈ d.fields := by
  rcases h.fields with heq | ⟨hperm, -⟩
  · rw [heq]
  · exact hperm.mem_iff.symm

/-- A class names the same types in its declaration, in either order. -/
private theorem ClassDecl.Reordered.mem_sources {d d' : ClassDecl} (h : d.Reordered d')
    {source : String} :
    source ∈ d'.sources ↔ source ∈ d.sources := by
  simp only [sources, List.mem_append, h.mem_parents, List.mem_map, h.mem_fields]

namespace Schema

open TypeGraph Relation

variable {s s' : Schema} {names : Names}

namespace Reordered

variable (h : s.Reordered s')

include h

/-- If one schema is another one in another order, so is the other one of the first. -/
theorem symm : s'.Reordered s where
  roots := h.roots.symm
  types := by
    -- The types are permuted first and compared in pairs then, so the two steps change places.
    obtain ⟨types, hperm, hall⟩ := h.types
    obtain ⟨types', hall', hperm'⟩ := List.perm_comp_forall₂ hperm hall
    exact ⟨types', hperm'.symm, (hall'.imp fun _ _ => TypeDecl.Reordered.symm).flip⟩

/-- Every type is declared in both schemas. -/
theorem exists_type {decl : TypeDecl} (hdecl : decl ∈ s.types) :
    ∃ decl' ∈ s'.types, decl.Reordered decl' := by
  obtain ⟨types, hperm, hall⟩ := h.types
  exact hall.exists_of_mem_left (hperm.mem_iff.1 hdecl)

/-- The names of the types are permuted with the types. -/
private theorem perm_names : (s.types.map (·.name)).Perm (s'.types.map (·.name)) := by
  obtain ⟨types, hperm, hall⟩ := h.types
  -- In pairs the names are equal.
  have heq : types.map (·.name) = s'.types.map (·.name) := by
    rw [← List.forall₂_eq_eq_eq, List.forall₂_map_left_iff, List.forall₂_map_right_iff]
    exact hall.imp fun _ _ hre => hre.name_eq.symm
  exact heq ▸ hperm.map _

/-- Every class of one schema is a class of the other one, perhaps in another order. -/
theorem exists_class {d : ClassDecl} (hd : d ∈ s.classes) : ∃ d' ∈ s'.classes, d.Reordered d' := by
  obtain ⟨decl, hdecl, hd⟩ := List.mem_filterMap.1 hd
  obtain ⟨decl', hdecl', hre⟩ := h.exists_type hdecl
  obtain ⟨d', hd', hre'⟩ := hre.exists_classDecl hd
  exact ⟨d', List.mem_filterMap.2 ⟨decl', hdecl', hd'⟩, hre'⟩

/-- Both schemas name the same types in their declarations and roots. -/
private theorem mem_sources {source : String} (hsource : source ∈ s.sources) :
    source ∈ s'.sources := by
  -- A type is named by a class or is a root.
  rcases List.mem_append.1 hsource with hsource | hroot
  · obtain ⟨d, hd, hsource⟩ := List.mem_flatMap.1 hsource
    obtain ⟨d', hd', hre⟩ := h.exists_class hd
    exact List.mem_append_left _ (List.mem_flatMap.2 ⟨d', hd', hre.mem_sources.2 hsource⟩)
  · exact List.mem_append_right _ (h.roots ▸ hroot)

/-- A class that is above another one in one schema is above it in the other one. -/
private theorem above {t u : TypeTerm} (htu : s.Above names t u) : s'.Above names t u := by
  obtain ⟨d, hd, rfl, source, hsuper, hmeans⟩ := htu
  obtain ⟨d', hd', hre⟩ := h.exists_class hd
  exact ⟨d', hd', by rw [hre.name], source, hre.superclass.trans hsuper, hmeans⟩

/-- The types of one schema can be declared if those of the other can. -/
theorem exists_declareTypes
    (hs : ∃ ids g, declareTypes .prelude s.types = .ok (ids, g)) :
    ∃ ids g, declareTypes .prelude s'.types = .ok (ids, g) := by
  have hsize : TypeId.firstDeclared ≤ TypeGraph.prelude.size := Nat.le_refl 32
  -- Declaring fails for a name that is taken and for a repeated one, and both schemas have the same
  -- names.
  rw [Schema.exists_declareTypes hsize] at hs ⊢
  refine ⟨fun decl hdecl => ?_, h.perm_names.nodup_iff.1 hs.2⟩
  obtain ⟨decl', hdecl', hre⟩ := h.symm.exists_type hdecl
  rw [← hre.name_eq]
  exact hs.1 decl' hdecl'

end Reordered

/-! ### The graphs in which linking starts -/

/-- Whether the same type stands at places of two graphs. -/
structure Twin (g g' : TypeGraph) (id id' : TypeId) : Prop where
  mem : id' ∈ g'.places
  descriptor : g'.descriptor id' = g.descriptor id
  isReserved : id'.isReserved = id.isReserved
  term : g'.term id' = g.term id

/-- Twins are found as the same: a term, and whether it is a class. -/
private theorem Twin.found_eq {g g' : TypeGraph} {id id' : TypeId} (h : Twin g g' id id') :
    g'.found id' = g.found id := by
  rw [found, found, h.term, classBody?, kind, h.descriptor]
  rfl

section Starts

variable {g g' : TypeGraph} {ids ids' : List TypeId} {id : TypeId} (hr : s.Reordered s')
  (h : Start s ids g) (h' : Start s' ids' g')

include hr h h'

omit h in
/-- What one declaration has a place for, the declaration in the other order has a place for. -/
private theorem Reordered.exists_place {decl : TypeDecl} (hpair : (decl, id) ∈ s.types.zip ids) :
    ∃ decl' id', (decl', id') ∈ s'.types.zip ids' ∧ decl.Reordered decl' := by
  obtain ⟨decl', hdecl', hre⟩ := hr.exists_type (List.of_mem_zip hpair).1
  obtain ⟨id', hpair'⟩ := h'.exists_place hdecl'
  exact ⟨decl', id', hpair', hre⟩

omit hr in
/-- The types of the prelude are their own twins. -/
private theorem Start.twin_of_isPrelude (hid : id.isPrelude) : Twin g g' id id where
  mem := (h'.prelude id hid).1
  descriptor := (h'.prelude id hid).2.trans (h.prelude id hid).2.symm
  isReserved := rfl
  term := (h'.term_of_isPrelude hid).trans (h.term_of_isPrelude hid).symm

/-- Every type of one graph has a twin in the other one. -/
theorem Start.exists_twin (hid : id ∈ g.places) : ∃ id', Twin g g' id id' := by
  -- A type was there from the start or has been declared.
  rcases h.cases hid with hprelude | ⟨decl, hpair⟩
  · exact ⟨id, h.twin_of_isPrelude h' hprelude⟩
  · obtain ⟨decl', id', hpair', hre⟩ := hr.exists_place h' hpair
    obtain ⟨-, hnot, hdesc⟩ := h.declared decl id hpair
    obtain ⟨hmem', hnot', hdesc'⟩ := h'.declared decl' id' hpair'
    exact ⟨id', hmem', by rw [hdesc', hre.descriptor_eq, hdesc],
      (TypeId.isReserved_of_isPrelude hnot').trans (TypeId.isReserved_of_isPrelude hnot).symm,
      by rw [h'.term hpair', hre.name_eq, h.term hpair]⟩

/-- What is found under a plain name in one graph has a twin that is found in the other one. -/
private theorem Start.lookup?_twin {name : String} (hname : PlainName name)
    (hid : g.lookup? name = some id) : ∃ id', g'.lookup? name = some id' ∧ Twin g g' id id' := by
  -- The name is that of a type of the graph, and its twin has the same name.
  obtain ⟨hmem, hres, hid⟩ := (h.built.lookup?_eq_some hname).1 hid
  obtain ⟨id', htwin⟩ := h.exists_twin hr h' hmem
  have hid' : g'.name id' = name := by
    rw [TypeGraph.name, htwin.descriptor]
    exact hid
  exact ⟨id', (h'.built.lookup?_eq_some hname).2 ⟨htwin.mem, htwin.isReserved.trans hres, hid'⟩,
    htwin⟩

/-- Under a plain name the same is found in both graphs. -/
private theorem Start.found_eq {name : String} (hname : PlainName name) :
    (g'.lookup? name).map g'.found = (g.lookup? name).map g.found := by
  cases hid : g.lookup? name with
  | some id =>
    obtain ⟨id', hid', htwin⟩ := h.lookup?_twin hr h' hname hid
    rw [hid', Option.map_some, Option.map_some, htwin.found_eq]
  | none =>
    cases hid' : g'.lookup? name with
    | none => rfl
    | some id' =>
      -- What is found in the other graph has a twin here.
      obtain ⟨_, hsome, -⟩ := h'.lookup?_twin hr.symm h hname hid'
      rw [hid] at hsome
      cases hsome

/-- Plain names stand for the same in both graphs. -/
theorem Start.names_eq {path : String} (hpath : PlainName path) : g.names path = g'.names path := by
  have hlookup := h.found_eq hr h' hpath
  have hstd := h.found_eq hr h' hpath.append_std
  -- A path is a keyword, the name of a type, or the name of a type of the standard library.
  unfold names typeNamed?
  cases Primitive.ofKeyword? path with
  | some p =>
    exact congrArg some (h.twin_of_isPrelude h' (isPrelude_primitive p)).found_eq.symm
  | none =>
    dsimp only
    cases hid : g.lookup? path <;> cases hid' : g'.lookup? path <;> rw [hid, hid'] at hlookup
    case some.some => exact hlookup.symm
    case none.none =>
      dsimp only
      split
      · rfl
      · exact hstd.symm
    all_goals cases hlookup

/-- Sources mean the same in both graphs, since names stand for the same. -/
theorem Start.means_iff {source : String} {t : TypeTerm} :
    Means g.names source t ↔ Means g'.names source t :=
  means_congr fun _ => h.names_eq hr h'

/-- What is a class in one graph is a class in the other one. -/
private theorem Start.classTerm {t : TypeTerm} (ht : g.ClassTerm t) : g'.ClassTerm t := by
  obtain ⟨id, hid, hterm, hsome⟩ := ht
  obtain ⟨id', htwin⟩ := h.exists_twin hr h' hid
  refine ⟨id', htwin.mem, htwin.term.trans hterm, ?_⟩
  rw [classBody?, kind, htwin.descriptor]
  exact hsome

/-- Whether a schema is loadable does not depend on the order of its declarations. -/
private theorem Loadable.reordered (hs : s.Loadable g) : s'.Loadable g' where
  means := fun source hsource => by
    -- Each of the three conditions is that of the other order, carried back.
    obtain ⟨t, ht⟩ := hs.means source (hr.symm.mem_sources hsource)
    exact ⟨t, (h.means_iff hr h').1 ht⟩
  parents := fun d hd source hsource t ht => by
    obtain ⟨d', hd', hre⟩ := hr.symm.exists_class hd
    exact h.classTerm hr h'
      (hs.parents d' hd' source (hre.mem_parents.2 hsource) t ((h.means_iff hr h').2 ht))
  -- A cycle of superclasses would be one in the other order.
  acyclic := fun t hcycle => by
    refine hs.acyclic t (TransGen.mono (fun a b hab => ?_) _ _ hcycle)
    obtain ⟨d, hd, ha, source, hsuper, hmeans⟩ := hr.symm.above hab
    exact ⟨d, hd, ha, source, hsuper, (h.means_iff hr h').2 hmeans⟩

end Starts

/-- If a schema loads, so does one whose declarations are in another order. -/
private theorem Reordered.exists_load (hr : s.Reordered s') {l : LoadedSchema}
    (hl : s.load = .ok l) :
    ∃ l', s'.load = .ok l' := by
  -- The types are declared first, and this succeeds in either order.
  obtain ⟨ids, g, hdeclare, hloaded⟩ := loaded_of_load hl
  obtain ⟨ids', g', hdeclare'⟩ := hr.exists_declareTypes ⟨ids, g, hdeclare⟩
  exact (hloaded.loadable.reordered hr hloaded.start (start_of_declareTypes hdeclare')).exists_load
    hdeclare'

/-! ### The graphs that the schemas are loaded into -/

section Graphs

variable {l l' : LoadedSchema} {g g' : TypeGraph} {ids ids' : List TypeId} {id : TypeId}
  (hr : s.Reordered s') (h : Loaded s ids g l) (h' : Loaded s' ids' g' l')

include hr h h'

/-- Both graphs have the same terms. -/
theorem Loaded.hasTerm {t : TypeTerm} (ht : l.graph.HasTerm t) : l'.graph.HasTerm t := by
  obtain ⟨id, hid, rfl⟩ := ht
  by_cases hold : id ∈ g.places
  · obtain ⟨id', htwin⟩ := h.start.exists_twin hr h'.start hold
    refine ⟨id', h'.stage.carries.places id' htwin.mem, ?_⟩
    rw [h'.stage.carries.term htwin.mem, htwin.term, h.stage.carries.term hold]
  · -- A type that is not declared is part of what an expression means.
    -- Both schemas name the same types, so the other graph has what is meant, and every part of it.
    obtain ⟨-, source, hsource, t, ht, hwithin⟩ := h.stage.new id hid hold
    obtain ⟨id', hmem', hmeans'⟩ := h'.exists_denotes (hr.mem_sources hsource)
    refine TypeGraph.HasTerm.within ⟨id', hmem', ?_⟩ hwithin
    exact hmeans'.unique ((h.start.means_iff hr h'.start).1 ht)

private theorem Loaded.hasTerm_iff {t : TypeTerm} : l.graph.HasTerm t ↔ l'.graph.HasTerm t :=
  ⟨h.hasTerm hr h', h'.hasTerm hr.symm h⟩

variable {σ : TypeId → TypeId} (hσ : Moves σ l.graph l'.graph)

include hσ

/-- What an expression stands for in one graph goes to what it stands for in the other one. -/
theorem Loaded.denotes {source : String} {a b : TypeId} (ha : Denotes g.names l.graph source a)
    (hb : Denotes g'.names l'.graph source b) : σ a = b :=
  hσ.eq_of_term h'.stage.built ha.1 hb.1 (hb.2.unique ((h.start.means_iff hr h'.start).1 ha.2))

/-- The roots of one graph are the places to which those of the other one move. -/
private theorem Loaded.roots_eq : l'.roots = l.roots.map σ := by
  have hroots := h'.roots
  rw [hr.roots] at hroots
  exact (List.map_eq_of_forall₂ h.roots hroots fun _ _ _ => h.denotes hr h' hσ).symm

/-- The superclass of a class moves with the class. -/
private theorem Loaded.superclass_eq {d d' : ClassDecl} (hre : d.Reordered d')
    {body body' : ClassBody}
    (hbody : Describes g.names l.graph d body) (hbody' : Describes g'.names l'.graph d' body') :
    body'.superclass = body.superclass.map σ := by
  have hsuper := hbody.superclass
  have hsuper' := hbody'.superclass
  rw [hre.superclass] at hsuper'
  -- Without a superclass in the declaration neither body has one.
  generalize d.superclass = source, body.superclass = above at hsuper hsuper' ⊢
  cases hsuper with
  | none =>
    generalize body'.superclass = above' at hsuper' ⊢
    cases hsuper'
    rfl
  | some ha =>
    generalize body'.superclass = above' at hsuper' ⊢
    cases hsuper' with
    | some hb => rw [Option.map_some, h.denotes hr h' hσ ha hb]

/-- The interfaces of a class move with the class, whatever their order. -/
private theorem Loaded.mem_interfaces {d d' : ClassDecl} (hre : d.Reordered d')
    {body body' : ClassBody}
    (hbody : Describes g.names l.graph d body) (hbody' : Describes g'.names l'.graph d' body')
    (id : TypeId) : σ id ∈ body'.interfaces ↔ id ∈ body.interfaces := by
  -- Two places that move to one are the same, so the interface of the other body is the one found
  -- here.
  have hbijective := hσ.bijective h.stage.built h'.stage.built fun _ => h.hasTerm_iff hr h'
  constructor
  · intro hmem
    obtain ⟨source, hsource, hb⟩ := hbody'.interfaces.exists_of_mem_right hmem
    obtain ⟨a, ha, hdenotes⟩ :=
      hbody.interfaces.exists_of_mem_left ((hre.interfaces source).1 hsource)
    rwa [← hbijective.injective (h.denotes hr h' hσ hdenotes hb)]
  · intro hmem
    obtain ⟨source, hsource, ha⟩ := hbody.interfaces.exists_of_mem_right hmem
    obtain ⟨b, hb, hdenotes⟩ :=
      hbody'.interfaces.exists_of_mem_left ((hre.interfaces source).2 hsource)
    rwa [h.denotes hr h' hσ ha hdenotes]

/-- A field of a declaration is that field in both bodies, with its type moved. -/
private theorem Loaded.rename_field {field : FieldDecl} {f f' : Field}
    (hf : DenotesField g.names l.graph field f) (hf' : DenotesField g'.names l'.graph field f') :
    f.rename σ = f' := by
  obtain ⟨type, rfl, htype⟩ := hf
  obtain ⟨type', rfl, htype'⟩ := hf'
  rw [Field.rename, h.denotes hr h' hσ htype htype']

/-- The fields of the two bodies are the same up to their types, or permuted and of distinct
names. -/
private theorem Loaded.fields_eq {d d' : ClassDecl} (hre : d.Reordered d') {body body' : ClassBody}
    (hbody : Describes g.names l.graph d body) (hbody' : Describes g'.names l'.graph d' body') :
    body'.fields = body.fields.map (Field.rename σ) ∨
      (body.fields.map (Field.rename σ)).Perm body'.fields ∧
        (body.fields.map (·.name)).Nodup := by
  -- The fields are declared in the same order, or permuted.
  rcases hre.fields with heq | ⟨hperm, hnodup⟩
  · have hfields' := hbody'.fields
    rw [heq] at hfields'
    exact Or.inl
      (List.map_eq_of_forall₂ hbody.fields hfields' fun _ _ _ => h.rename_field hr h' hσ).symm
  · -- The fields of the other body come in the order of its declaration.
    obtain ⟨fields, hfields, hperm'⟩ := List.perm_comp_forall₂ hperm hbody'.fields
    have hmap : body.fields.map (Field.rename σ) = fields :=
      List.map_eq_of_forall₂ hbody.fields hfields fun _ _ _ => h.rename_field hr h' hσ
    -- The names in the body are those of the declaration.
    have hnames : d.fields.map (·.name) = body.fields.map (·.name) := by
      rw [← List.forall₂_eq_eq_eq, List.forall₂_map_left_iff, List.forall₂_map_right_iff]
      exact hbody.fields.imp fun _ _ ⟨_, hf, _⟩ => by rw [hf]
    exact Or.inr ⟨hmap ▸ hperm', hnames ▸ hnodup⟩

/-- What is made of no other types stays what it is. -/
theorem Loaded.twin (hid : id ∈ l.graph.places) (hparts : (l.graph.kind id).parts = []) :
    id ∈ g.places ∧ Twin g g' id (σ id) := by
  have hold : id ∈ g.places :=
    Decidable.byContradiction fun hnot => (h.stage.new id hid hnot).1 hparts
  -- It was there before the bodies were set, and has had a twin since.
  obtain ⟨id', htwin⟩ := h.start.exists_twin hr h'.start hold
  have hmem' := h'.stage.carries.places id' htwin.mem
  have heq : σ id = id' := hσ.eq_of_term h'.stage.built hid hmem'
    (by rw [h'.stage.carries.term htwin.mem, htwin.term, h.stage.carries.term hold])
  exact ⟨hold, heq ▸ htwin⟩

/-- What is made of no other types keeps its name. -/
private theorem Loaded.name_eq (hid : id ∈ l.graph.places) (hparts : (l.graph.kind id).parts = []) :
    l'.graph.name (σ id) = l.graph.name id := by
  obtain ⟨hold, htwin⟩ := h.twin hr h' hσ hid hparts
  rw [h'.stage.carries.name _ htwin.mem, h.stage.carries.name id hold, TypeGraph.name,
    htwin.descriptor, TypeGraph.name]

/-- What is made of no other types keeps its kind, apart from the types in its body. -/
private theorem Loaded.bare_eq (hid : id ∈ l.graph.places) (hparts : (l.graph.kind id).parts = []) :
    (l'.graph.kind (σ id)).bare = (l.graph.kind id).bare := by
  obtain ⟨hold, htwin⟩ := h.twin hr h' hσ hid hparts
  rw [h'.stage.carries.bare _ htwin.mem, h.stage.carries.bare id hold, kind, htwin.descriptor, kind]

/-- The bodies of classes say the same in both graphs. -/
private theorem Loaded.body_renames (hplain : l.graph.LibraryPlain)
    (hplain' : l'.graph.LibraryPlain)
    (hid : id ∈ l.graph.places) (hparts : (l.graph.kind id).parts = []) {body body' : ClassBody}
    (hbody : l.graph.classBody? id = some body)
    (hbody' : l'.graph.classBody? (σ id) = some body') : body.Renames σ body' := by
  have hbare := congrArg TypeKind.classBody? (h.bare_eq hr h' hσ hid hparts)
  have hsome : (l'.graph.kind (σ id)).classBody? = some body' := hbody'
  have hsome' : (l.graph.kind id).classBody? = some body := hbody
  -- The kinds agree apart from the types in the bodies.
  rw [TypeKind.classBody?_bare, TypeKind.classBody?_bare, hsome, hsome'] at hbare
  simp only [Option.map_some, Option.some.injEq, ClassBody.mk.injEq] at hbare
  obtain ⟨hlibrary, habstract, -⟩ := hbare
  by_cases hlib : body.isLibrary
  · -- A class of a library has nothing in its body in either graph.
    obtain ⟨hs, hi, hf⟩ := hplain id body hbody hlib
    obtain ⟨hs', hi', hf'⟩ := hplain' (σ id) body' hbody' (hlibrary.trans hlib)
    exact ⟨hlibrary, habstract, by rw [hs, hs']; rfl, by simp [hi, hi'],
      Or.inl (by rw [hf, hf']; rfl)⟩
  · -- Any other class is declared, and what is declared in its place says the same.
    obtain ⟨hold, -⟩ := h.twin hr h' hσ hid hparts
    obtain ⟨decl, d, hpair, hd, hdescribes⟩ := h.exists_classDecl hold hbody hlib
    obtain ⟨decl', id', hpair', hre⟩ := hr.exists_place h'.start hpair
    obtain ⟨d', hd', hre'⟩ := hre.exists_classDecl hd
    obtain ⟨b, hb, hdescribes'⟩ := h'.describes _ hpair' d' hd'
    have hmem' := (h'.start.declared decl' id' hpair').1
    -- The place it moves to is that of the twin, since both have the same term.
    have heq : σ id = id' := by
      refine hσ.eq_of_term h'.stage.built hid (h'.stage.carries.places id' hmem') ?_
      rw [h'.stage.carries.term hmem', h'.start.term hpair', hre.name_eq, ← h.start.term hpair,
        h.stage.carries.term hold]
    rw [heq] at hbody'
    cases hbody'.symm.trans hb
    exact ⟨hlibrary, habstract, h.superclass_eq hr h' hσ hre' hdescribes hdescribes',
      h.mem_interfaces hr h' hσ hre' hdescribes hdescribes',
      h.fields_eq hr h' hσ hre' hdescribes hdescribes'⟩

/-- One graph renames the other. -/
theorem Loaded.renames (hplain : l.graph.LibraryPlain) (hplain' : l'.graph.LibraryPlain) :
    TypeGraph.Renames σ l.graph l'.graph := by
  refine hσ.renames h.stage.built h'.stage.built (fun _ => h.hasTerm_iff hr h') (fun id hid => ?_)
    (fun id => h.name_eq hr h' hσ) fun id hid hparts => ?_
  · have hold := (h.start.prelude id hid).1
    exact ⟨h.stage.carries.places id hold, by rw [h.stage.carries.parts hold, h.start.parts hold]⟩
  · exact TypeKind.renames_of_bare hparts (h.bare_eq hr h' hσ hid hparts) fun _ _ =>
      h.body_renames hr h' hσ hplain hplain' hid hparts

end Graphs

/-- The order of the types of a schema, and of their fields and interfaces, does not matter: the
schema loads or not in every order, and what is generated from it, or reported, is the same. -/
theorem Reordered.generateSchema_eq (hr : s.Reordered s') :
    ((∃ l, s.load = .ok l) ↔ ∃ l', s'.load = .ok l') ∧
      ∀ (c : GeneratorConfig) (l l' : LoadedSchema), s.load = .ok l → s'.load = .ok l' →
        c.generateSchema l' = c.generateSchema l := by
  refine ⟨⟨fun ⟨_, hl⟩ => hr.exists_load hl, fun ⟨_, hl'⟩ => hr.symm.exists_load hl'⟩,
    fun c l l' hl hl' => ?_⟩
  -- Both graphs hold the same terms, so every place has one to move to.
  obtain ⟨ids, g, -, h⟩ := loaded_of_load hl
  obtain ⟨ids', g', -, h'⟩ := loaded_of_load hl'
  obtain ⟨σ, hσ⟩ := exists_moves fun t => h.hasTerm hr h' (t := t)
  -- The moves respect the bodies of classes, which makes them a renaming.
  have hrenames := h.renames hr h' hσ (libraryPlain_of_load hl) (libraryPlain_of_load hl')
  unfold GeneratorConfig.generateSchema
  rw [h.roots_eq hr h' hσ]
  -- What is generated from a graph is the same after a renaming.
  exact hrenames.generate (loadedGraph_of_load hl) (loadedGraph_of_load hl') c l.roots

/-- The two schemas of a stock differ in the order of their types, fields and interfaces. -/
private theorem reordered_stockSchema :
    Example.stockSchema.Reordered Example.stockSchemaReversed where
  roots := rfl
  types := by
    refine ⟨_, (List.reverse_perm _).symm,
      .cons ?shelf (.cons ?crate (.cons ?box (.cons ?labelled .nil)))⟩
    case shelf => exact .classType ⟨rfl, rfl, rfl, fun _ => Iff.rfl, Or.inr (by decide)⟩
    case crate => exact .classType ⟨rfl, rfl, rfl, fun _ => Iff.rfl, Or.inl rfl⟩
    case box => exact .classType ⟨rfl, rfl, rfl, by simp, Or.inr (by decide)⟩
    case labelled => exact .interfaceType ⟨rfl, rfl, rfl, fun _ => Iff.rfl, Or.inl rfl⟩

/-- The schema of the stock loads. -/
private theorem exists_load_stockSchema : ∃ l, Example.stockSchema.load = .ok l := by
  -- Only whether it loads is evaluated.
  have hsome : Example.stockSchema.load.toOption.isSome = true := by decide +kernel
  cases hl : Example.stockSchema.load with
  | ok l => exact ⟨l, rfl⟩
  | error e =>
    rw [hl] at hsome
    cases hsome

/-- Both schemas of a stock load, and what is generated from them is the same. -/
theorem generateSchema_stockSchema : ∃ l l' : LoadedSchema, Example.stockSchema.load = .ok l ∧
    Example.stockSchemaReversed.load = .ok l' ∧
      ∀ c : GeneratorConfig, c.generateSchema l' = c.generateSchema l := by
  obtain ⟨hloads, hgenerate⟩ := Reordered.generateSchema_eq reordered_stockSchema
  obtain ⟨l, hl⟩ := exists_load_stockSchema
  obtain ⟨l', hl'⟩ := hloads.1 ⟨l, hl⟩
  exact ⟨l, l', hl, hl', fun c => hgenerate c l l' hl hl'⟩

end Schema

end GraphCodec
