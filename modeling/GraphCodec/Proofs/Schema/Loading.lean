import GraphCodec.Proofs.Schema.Declaring

/-!
# When schemas load

Once its types have been declared, a schema loads exactly when all its expressions mean something,
what is above a class is a class or an interface, and no class is above itself (`Schema.Loadable`).
None of that depends on places.  The graph that a schema is loaded into says what the schema says
(`Schema.Loaded`).
-/

namespace GraphCodec

open TypeGraph Relation

variable {s : Schema} {g₀ g g' : TypeGraph} {id : TypeId} {ids : List TypeId} {l : LoadedSchema}

/-- Whether a term is a class or an interface of a graph. -/
def TypeGraph.ClassTerm (g : TypeGraph) (t : TypeTerm) : Prop :=
  ∃ id ∈ g.places, g.term id = t ∧ (g.classBody? id).isSome

namespace Schema

/-- Whether what the declarations of a schema speak of lets it be loaded. -/
structure Loadable (s : Schema) (g₀ : TypeGraph) : Prop where
  means : ∀ source ∈ s.sources, ∃ t, Means g₀.names source t
  parents : ∀ d ∈ s.classes, ∀ source ∈ d.parents, ∀ t, Means g₀.names source t → g₀.ClassTerm t
  acyclic : ∀ t, ¬TransGen (s.Above g₀.names) t t

/-- What holds of a schema that has been loaded. -/
structure Loaded (s : Schema) (ids : List TypeId) (g₀ : TypeGraph) (l : LoadedSchema) : Prop where
  start : Start s ids g₀
  stage : Stage s g₀ l.graph
  describes : ∀ p ∈ s.types.zip ids, ∀ d, p.1.classDecl? = some d →
    ∃ body, l.graph.classBody? p.2 = some body ∧ Describes g₀.names l.graph d body
  roots : List.Forall₂ (Denotes g₀.names l.graph) s.roots l.roots

/-- A schema loads if its types are declared and linked and its roots resolved. -/
private theorem load_eq_ok :
    s.load = .ok l ↔ ∃ ids g₀ g, declareTypes .prelude s.types = .ok (ids, g₀) ∧
    linkTypes g₀ (s.types.zip ids) = .ok g ∧ resolveRoots g s.roots = .ok (l.roots, l.graph) := by
  unfold load
  simp only [Except.bind_eq_ok, declaring_eq_ok, Prod.exists]
  constructor
  · rintro ⟨ids, g₀, hdeclare, g, hlink, roots, graph, hroots, h⟩
    cases h
    exact ⟨ids, g₀, g, hdeclare, hlink, hroots⟩
  · rintro ⟨ids, g₀, g, hdeclare, hlink, hroots⟩
    exact ⟨ids, g₀, hdeclare, g, hlink, _, _, hroots, rfl⟩

/-- All classes of a schema are still to be linked after they have been declared. -/
private theorem Start.unlinked_all (h : Start s ids g₀) :
    ∀ p ∈ s.types.zip ids, ∀ d, p.1.classDecl? = some d → Unlinked s g₀ d p.2 :=
  fun _ hp _ hd => h.unlinked hp hd

/-- The roots are among the expressions of a schema. -/
private theorem mem_sources_of_mem_roots {source : String} (h : source ∈ s.roots) :
    source ∈ s.sources :=
  List.mem_append_right _ h

/-- The graph of a schema that loads says what the schema says. -/
theorem loaded_of_load (h : s.load = .ok l) :
    ∃ ids g₀, declareTypes .prelude s.types = .ok (ids, g₀) ∧ Loaded s ids g₀ l := by
  obtain ⟨ids, g₀, g, hdeclare, hlink, hroots⟩ := load_eq_ok.1 h
  have hstart := start_of_declareTypes hdeclare
  have hall := hstart.stage.linkTypes hstart.unlinked_all
    (by rw [hstart.map_snd_zip]; exact hstart.nodup) hlink
  obtain ⟨hstage, hcarries, hbodies, hroots⟩ :=
    hall.stage.resolveRoots (fun _ => mem_sources_of_mem_roots) hroots
  refine ⟨ids, g₀, hdeclare, hstart, hstage, fun p hp d hd => ?_, hroots⟩
  -- The body of a class stays what it was while the roots are resolved.
  obtain ⟨body, hbody, hdescribes⟩ := hall.describes p hp d hd
  have hmem : p.2 ∈ g.places := hall.carries.places _ (hstart.declared p.1 p.2 hp).1
  exact ⟨body, (hbodies _ hmem).trans hbody, hdescribes.mono hcarries⟩

/-! ### What is loadable loads -/

section Loads

variable (hs : s.Loadable g₀)

include hs

/-- An expression of a schema that is loadable can be resolved. -/
theorem Loadable.exists_resolve (h : Stage s g₀ g) (context : String) {source : String}
    (hsource : source ∈ s.sources) :
    ∃ id g', resolve g context source = .ok (id, g') ∧ Resolved s g₀ g source id g' := by
  obtain ⟨t, ht⟩ := hs.means source hsource
  obtain ⟨id, g', hresolve⟩ := Schema.exists_resolve h.built context (h.means_iff.2 ht)
  exact ⟨id, g', hresolve, h.resolve hsource hresolve⟩

/-- What is above a class is a class when it has been resolved. -/
theorem Loadable.isSome_classBody? {d : ClassDecl} (hd : d ∈ s.classes) {source : String}
    (hsource : source ∈ d.parents) {above : TypeId} (h : Resolved s g₀ g source above g') :
    (g'.classBody? above).isSome := by
  -- What is above the class is named by a declaration, and names stand for one type.
  obtain ⟨x, hx, hterm, hsome⟩ := hs.parents d hd source hsource _ h.denotes.2
  have hcarries := h.stage.carries
  have heq : x = above := h.stage.built.term_injective (hcarries.places x hx) h.denotes.1
    ((hcarries.term hx).trans hterm)
  rwa [← hcarries.isSome_classBody? hx, heq] at hsome

variable {d : ClassDecl} (hd : d ∈ s.classes)

include hd

/-- No class that is resolved as the superclass of another one is below it. -/
private theorem Loadable.not_below (hterm : g.term id = .declared d.name) (hid : id ∈ g.places)
    {source : String} (hsuper : d.superclass = some source) {above : TypeId}
    (h : Resolved s g₀ g source above g') : ¬(id = above ∨ id ∈ g'.ancestors above) := by
  have hstep : s.Above g₀.names (g'.term id) (g'.term above) :=
    ⟨d, hd, (h.carries.term hid).trans hterm, source, hsuper, h.denotes.2⟩
  rintro (rfl | hmem)
  · exact hs.acyclic _ (.single hstep)
  · rw [h.stage.built.acyclic.mem_ancestors_iff h.stage.built.consistent] at hmem
    -- The classes above the superclass are there because they are declared to be.
    have hway : TransGen (s.Above g₀.names) (g'.term above) (g'.term id) :=
      hmem.lift g'.term h.stage.above
    exact hs.acyclic _ (hway.head hstep)

omit hs in
theorem mem_sources_of_mem {source : String} (hsource : source ∈ d.sources) : source ∈ s.sources :=
  List.mem_append_left _ (List.mem_flatMap.2 ⟨d, hd, hsource⟩)

/-- The superclass of a class can be linked. -/
private theorem Loadable.exists_linkSuperclass (h : Stage s g₀ g) (hu : Unlinked s g d id) :
    ∃ g', linkSuperclass g id d = .ok g' := by
  unfold linkSuperclass
  cases hsuper : d.superclass with
  | none => exact ⟨g, rfl⟩
  | some source =>
    have hmem : source ∈ d.parents :=
      List.mem_append_left _ (by rw [hsuper]; exact List.mem_singleton_self source)
    obtain ⟨above, g₁, hresolve, h₁⟩ := hs.exists_resolve h d.name
      (mem_sources_of_mem hd (List.mem_append_left _ hmem))
    obtain ⟨body, hbody, -⟩ := hu.body
    -- The superclass is a class, and not below the class itself.
    obtain ⟨g₂, hset⟩ : ∃ g₂, g₁.setSuperclass id above = .ok g₂ :=
      ⟨_, setSuperclass_eq_ok.2 ⟨body, (h₁.classBody? id hu.mem).trans hbody,
        hs.isSome_classBody? hd hmem h₁, hs.not_below hd hu.term hu.mem hsuper h₁, rfl⟩⟩
    exact ⟨g₂, Except.bind_eq_ok.2 ⟨(above, g₁), hresolve, declaring_eq_ok.2 hset⟩⟩

/-- An interface of a class can be linked. -/
private theorem Loadable.exists_linkInterface (h : Stage s g₀ g) (hid : id ∈ g.places)
    {body : ClassBody}
    (hbody : g.classBody? id = some body) {source : String} (hsource : source ∈ d.interfaces) :
    ∃ g', linkInterface id d g source = .ok g' := by
  have hmem : source ∈ d.parents := List.mem_append_right _ hsource
  obtain ⟨above, g₁, hresolve, h₁⟩ := hs.exists_resolve h d.name
    (mem_sources_of_mem hd (List.mem_append_left _ hmem))
  -- What is resolved is a class or interface.
  obtain ⟨g₂, hadd⟩ : ∃ g₂, g₁.addInterface id above = .ok g₂ :=
    ⟨_, addInterface_eq_ok.2
      ⟨body, (h₁.classBody? id hid).trans hbody, hs.isSome_classBody? hd hmem h₁, rfl⟩⟩
  exact ⟨g₂, Except.bind_eq_ok.2 ⟨(above, g₁), hresolve, declaring_eq_ok.2 hadd⟩⟩

/-- A field of a class can be linked. -/
private theorem Loadable.exists_linkField (h : Stage s g₀ g) (hid : id ∈ g.places)
    {body : ClassBody}
    (hbody : g.classBody? id = some body) {field : FieldDecl} (hfield : field ∈ d.fields) :
    ∃ g', linkField id d g field = .ok g' := by
  -- The type of a field may be anything.
  obtain ⟨type, g₁, hresolve, h₁⟩ := hs.exists_resolve h (d.name ++ "." ++ field.name)
    (mem_sources_of_mem hd (List.mem_append_right _ (List.mem_map_of_mem hfield)))
  obtain ⟨g₂, hadd⟩ : ∃ g₂,
      g₁.addField id ⟨field.name, type, field.isPrivate, field.modifiers⟩ = .ok g₂ :=
    ⟨_, addField_eq_ok.2 ⟨body, (h₁.classBody? id hid).trans hbody, rfl⟩⟩
  exact ⟨g₂, Except.bind_eq_ok.2 ⟨(type, g₁), hresolve, declaring_eq_ok.2 hadd⟩⟩

end Loads

/-- A run of steps that can all be taken, whatever was done before, can be taken. -/
private theorem exists_foldlM {α : Type} {inv : TypeGraph → Prop}
    (step : TypeGraph → α → Except SchemaError TypeGraph) (as : List α)
    (hstep : ∀ g, inv g → ∀ a ∈ as, ∃ g', step g a = .ok g' ∧ inv g') (hg : inv g) :
    ∃ g', as.foldlM step g = .ok g' ∧ inv g' := by
  induction as generalizing g with
  | nil => exact ⟨g, rfl, hg⟩
  | cons a rest ih =>
    -- The first step can be taken and keeps the invariant, and so do the others.
    obtain ⟨g₁, hfirst, hg₁⟩ := hstep g hg a List.mem_cons_self
    obtain ⟨g', hrest, hg'⟩ := ih (fun g hg a ha => hstep g hg a (List.mem_cons_of_mem _ ha)) hg₁
    exact ⟨g', by rw [List.foldlM_cons]; exact Except.bind_eq_ok.2 ⟨g₁, hfirst, hrest⟩, hg'⟩

/-- A class can be linked. -/
private theorem Loadable.exists_linkClass (hs : s.Loadable g₀) (h : Stage s g₀ g) {d : ClassDecl}
    (hu : Unlinked s g d id) : ∃ g', linkClass g id d = .ok g' := by
  have hd := hu.decl
  obtain ⟨body, hbody, hnone, -⟩ := hu.body
  obtain ⟨g₁, hlink₁⟩ := hs.exists_linkSuperclass hd h hu
  obtain ⟨h₁, htouch₁, above, -, hbody₁⟩ := h.linkSuperclass hu.mem hbody hd hu.term hnone hlink₁
  -- While a class is linked it stays a class of the graph.
  let inv (g : TypeGraph) : Prop :=
    Stage s g₀ g ∧ id ∈ g.places ∧ ∃ body, g.classBody? id = some body
  have hlinked : ∀ {g g' : TypeGraph} {source : String} {type : TypeId} {body : ClassBody},
      id ∈ g.places → Linked s g₀ g id source type body g' → inv g' := fun hid hlinked =>
    ⟨hlinked.stage, hlinked.touches.carries.places id hid, _, hlinked.classBody?⟩
  have hinv₁ : inv g₁ := ⟨h₁, htouch₁.carries.places id hu.mem, _, hbody₁⟩
  obtain ⟨g₂, hlink₂, hinv₂⟩ := exists_foldlM (linkInterface id d) d.interfaces
    (fun g ⟨h, hid, body, hbody⟩ source hsource => by
      obtain ⟨g', hlink⟩ := hs.exists_linkInterface hd h hid hbody hsource
      have hmem : source ∈ s.sources :=
        mem_sources_of_mem hd (List.mem_append_left _ (List.mem_append_right _ hsource))
      obtain ⟨above, hlinked'⟩ := h.linkInterface hid hbody hmem hlink
      exact ⟨g', hlink, hlinked hid hlinked'⟩) hinv₁
  obtain ⟨g₃, hlink₃, -⟩ := exists_foldlM (linkField id d) d.fields
    (fun g ⟨h, hid, body, hbody⟩ field hfield => by
      obtain ⟨g', hlink⟩ := hs.exists_linkField hd h hid hbody hfield
      have hmem : field.type ∈ s.sources :=
        mem_sources_of_mem hd (List.mem_append_right _ (List.mem_map_of_mem hfield))
      obtain ⟨type, hlinked'⟩ := h.linkField hid hbody hmem hlink
      exact ⟨g', hlink, hlinked hid hlinked'⟩) hinv₂
  exact ⟨g₃, Except.bind_eq_ok.2 ⟨g₁, hlink₁, Except.bind_eq_ok.2 ⟨g₂, hlink₂, hlink₃⟩⟩⟩

/-- All classes can be linked. -/
private theorem Loadable.exists_linkTypes (hs : s.Loadable g₀) (h : Stage s g₀ g)
    {pairs : List (TypeDecl × TypeId)}
    (hpairs : ∀ p ∈ pairs, ∀ d, p.1.classDecl? = some d → Unlinked s g d p.2)
    (hnodup : (pairs.map (·.2)).Nodup) : ∃ g', linkTypes g pairs = .ok g' := by
  induction pairs generalizing g with
  | nil => exact ⟨g, rfl⟩
  | cons p pairs ih =>
    obtain ⟨decl, id⟩ := p
    rw [List.map_cons, List.nodup_cons] at hnodup
    have hrest : ∀ p ∈ pairs, ∀ d, p.1.classDecl? = some d → Unlinked s g d p.2 := fun p hp =>
      hpairs p (List.mem_cons_of_mem _ hp)
    unfold linkTypes
    cases hd : decl.classDecl? with
    -- Enums and types of a library are passed over.
    | none => exact ih h hrest hnodup.2
    | some d =>
      have hunlinked : Unlinked s g d id := hpairs (decl, id) List.mem_cons_self d hd
      obtain ⟨g₁, hfirst⟩ := hs.exists_linkClass h hunlinked
      -- The other classes are still to be linked behind the first one.
      obtain ⟨h₁, htouch, -⟩ := h.linkClass hunlinked hfirst
      obtain ⟨g', hlink⟩ := ih h₁ (fun p hp d hd => (hrest p hp d hd).touches htouch fun heq =>
        hnodup.1 (List.mem_map.2 ⟨p, hp, heq⟩)) hnodup.2
      exact ⟨g', Except.bind_eq_ok.2 ⟨g₁, hfirst, hlink⟩⟩

/-- The roots can be resolved. -/
private theorem Loadable.exists_resolveRoots (hs : s.Loadable g₀) (h : Stage s g₀ g)
    {sources : List String} (hsources : ∀ source ∈ sources, source ∈ s.sources) :
    ∃ ids g', resolveRoots g sources = .ok (ids, g') := by
  induction sources generalizing g with
  | nil => exact ⟨[], g, rfl⟩
  | cons source rest ih =>
    obtain ⟨id, g₁, hfirst, h₁⟩ := hs.exists_resolve h "roots" (hsources source List.mem_cons_self)
    obtain ⟨ids, g', hrest⟩ := ih h₁.stage fun x hx => hsources x (List.mem_cons_of_mem _ hx)
    exact ⟨id :: ids, g', Except.bind_eq_ok.2 ⟨_, hfirst, Except.bind_eq_ok.2 ⟨_, hrest, rfl⟩⟩⟩

/-- A loadable schema whose types can be declared loads. -/
theorem Loadable.exists_load (hs : s.Loadable g₀)
    (hdeclare : declareTypes .prelude s.types = .ok (ids, g₀)) : ∃ l, s.load = .ok l := by
  have hstart := start_of_declareTypes hdeclare
  have hnodup : ((s.types.zip ids).map (·.2)).Nodup := by
    rw [hstart.map_snd_zip]
    exact hstart.nodup
  -- Every step can be taken, from declaring to the roots.
  obtain ⟨g, hlink⟩ := hs.exists_linkTypes hstart.stage hstart.unlinked_all hnodup
  have hall := hstart.stage.linkTypes hstart.unlinked_all hnodup hlink
  obtain ⟨roots, graph, hroots⟩ :=
    hs.exists_resolveRoots hall.stage fun _ => mem_sources_of_mem_roots
  exact ⟨⟨graph, roots⟩, load_eq_ok.2 ⟨ids, g₀, g, hdeclare, hlink, hroots⟩⟩

/-! ### What loads is loadable -/

/-- All classes of the first graph are those of a library. -/
private theorem isLibrary_prelude :
    ∀ i < 32, (TypeGraph.prelude.classBody? ⟨i⟩).all (·.isLibrary) = true := by
  decide

namespace Loaded

variable (h : Loaded s ids g₀ l)

include h

/-- What the body of a declared class says. -/
theorem exists_describes {d : ClassDecl} (hd : d ∈ s.classes) : ∃ id body,
    id ∈ g₀.places ∧ l.graph.term id = .declared d.name ∧ l.graph.classBody? id = some body ∧
      Describes g₀.names l.graph d body := by
  obtain ⟨decl, hdecl, hd⟩ := List.mem_filterMap.1 hd
  obtain ⟨id, hpair⟩ := h.start.exists_place hdecl
  have hu := h.start.unlinked hpair hd
  obtain ⟨body, hbody, hdescribes⟩ := h.describes _ hpair d hd
  exact ⟨id, body, hu.mem, (h.stage.carries.term hu.mem).trans hu.term, hbody, hdescribes⟩

/-- A class that no library has is one that is declared, and its body says so. -/
theorem exists_classDecl (hid : id ∈ g₀.places) {body : ClassBody}
    (hbody : l.graph.classBody? id = some body) (hlibrary : ¬body.isLibrary) :
    ∃ decl d, (decl, id) ∈ s.types.zip ids ∧ decl.classDecl? = some d ∧
      Describes g₀.names l.graph d body := by
  -- Whether a class is of the library does not change while classes are linked.
  obtain ⟨b, hb, hlib⟩ : ∃ b, g₀.classBody? id = some b ∧ b.isLibrary = body.isLibrary := by
    have hmap := h.stage.carries.classBody?_map hid
    rw [hbody, Option.map_some] at hmap
    obtain ⟨b, hb, heq⟩ := Option.map_eq_some_iff.1 hmap.symm
    rw [ClassBody.mk.injEq] at heq
    exact ⟨b, hb, heq.1⟩
  rw [← hlib] at hlibrary
  -- All classes of the prelude are of the library, so the class has been declared.
  rcases h.start.cases hid with hprelude | ⟨decl, hpair⟩
  · rw [classBody?, kind, (h.start.prelude id hprelude).2] at hb
    have hall := isLibrary_prelude id.index (of_decide_eq_true hprelude)
    rw [show TypeGraph.prelude.classBody? ⟨id.index⟩ = some b from hb] at hall
    exact absurd hall hlibrary
  · cases hd : decl.classDecl? with
    | some d =>
      obtain ⟨body', hbody', hdescribes⟩ := h.describes _ hpair d hd
      cases hbody.symm.trans hbody'
      exact ⟨decl, d, hpair, hd, hdescribes⟩
    -- A type without a declaration of a class is of the library, or no class at all.
    | none =>
      rw [classBody?, kind, (h.start.declared decl id hpair).2.2] at hb
      cases decl with
      | libraryType name =>
        cases hb
        exact absurd rfl hlibrary
      | enumType decl => cases hb
      | classType d => cases hd
      | interfaceType d => cases hd

/-- What is above a declared class stands for something. -/
theorem exists_parent {d : ClassDecl} (hd : d ∈ s.classes) {source : String}
    (hsource : source ∈ d.parents) :
    ∃ id above, above ∈ (l.graph.kind id).parents ∧ Denotes g₀.names l.graph source above := by
  obtain ⟨id, body, -, -, hbody, hdescribes⟩ := h.exists_describes hd
  refine ⟨id, ?_⟩
  rw [parents_eq hbody]
  -- The superclass or an interface of the class.
  rcases List.mem_append.1 hsource with hsource | hsource
  · rw [Option.mem_toList] at hsource
    have hsuper := hdescribes.superclass
    rw [hsource] at hsuper
    generalize body.superclass = above at hsuper ⊢
    cases hsuper with
    | some hdenotes => exact ⟨_, List.mem_append_left _ (List.mem_singleton_self _), hdenotes⟩
  · obtain ⟨above, habove, hdenotes⟩ := hdescribes.interfaces.exists_of_mem_left hsource
    exact ⟨above, List.mem_append_right _ habove, hdenotes⟩

/-- Every expression stands for something. -/
theorem exists_denotes {source : String} (hsource : source ∈ s.sources) :
    ∃ id, Denotes g₀.names l.graph source id := by
  -- The expression stands above a class, or is the type of a field, or is a root.
  rcases List.mem_append.1 hsource with hsource | hroot
  · obtain ⟨d, hd, hsource⟩ := List.mem_flatMap.1 hsource
    rcases List.mem_append.1 hsource with hparent | hfield
    · obtain ⟨-, above, -, hdenotes⟩ := h.exists_parent hd hparent
      exact ⟨above, hdenotes⟩
    · obtain ⟨field, hmem, rfl⟩ := List.mem_map.1 hfield
      obtain ⟨-, body, -, -, -, hdescribes⟩ := h.exists_describes hd
      obtain ⟨-, -, type, -, hdenotes⟩ := hdescribes.fields.exists_of_mem_left hmem
      exact ⟨type, hdenotes⟩
  · obtain ⟨id, -, hdenotes⟩ := h.roots.exists_of_mem_left hroot
    exact ⟨id, hdenotes⟩

/-- A class of the graph is one of those that were there before linking. -/
private theorem classTerm (hid : id ∈ l.graph.places) (hsome : (l.graph.classBody? id).isSome) :
    g₀.ClassTerm (l.graph.term id) := by
  -- A type that linking has put in is structural, so it is no class.
  have hmem : id ∈ g₀.places := by
    refine Decidable.byContradiction fun hnot => ?_
    rw [classBody?, TypeKind.classBody?_of_parts (h.stage.new id hid hnot).1] at hsome
    cases hsome
  refine ⟨id, hmem, (h.stage.carries.term hmem).symm, ?_⟩
  rw [← h.stage.carries.isSome_classBody? hmem]
  exact hsome

/-- What is declared to be above a class is above it. -/
private theorem exists_below {t u : TypeTerm} (htu : s.Above g₀.names t u) :
    ∃ a b, l.graph.Below a b ∧ l.graph.term a = t ∧ l.graph.term b = u := by
  obtain ⟨d, hd, rfl, source, hsuper, hmeans⟩ := htu
  obtain ⟨id, body, -, hterm, hbody, hdescribes⟩ := h.exists_describes hd
  have hrel := hdescribes.superclass
  rw [hsuper] at hrel
  -- The class has a superclass, since its declaration names one.
  cases hbelow : body.superclass with
  | none =>
    rw [hbelow] at hrel
    cases hrel
  | some above =>
    rw [hbelow] at hrel
    cases hrel with
    | some hdenotes =>
      exact ⟨id, above, (superclass?_eq_some hbody).trans hbelow, hterm, hdenotes.2.unique hmeans⟩

/-- What is above a class by way of other declarations is above it. -/
private theorem exists_transGen {t u : TypeTerm} (htu : TransGen (s.Above g₀.names) t u) :
    ∃ a ∈ l.graph.places, ∃ b ∈ l.graph.places,
      TransGen l.graph.Below a b ∧ l.graph.term a = t ∧ l.graph.term b = u := by
  have hbuilt := h.stage.built
  induction htu with
  | single hstep =>
    obtain ⟨a, b, hbelow, ha, hb⟩ := h.exists_below hstep
    exact ⟨a, mem_places_of_below hbelow, b, (hbuilt.consistent.below hbelow).1, .single hbelow, ha,
      hb⟩
  -- The next class above is found in the same way.
  | tail _ hstep ih =>
    obtain ⟨a, hmem, b, hmem', hway, ha, hb⟩ := ih
    obtain ⟨b', c, hbelow, hb', hc⟩ := h.exists_below hstep
    cases hbuilt.term_injective hmem' (mem_places_of_below hbelow) (hb.trans hb'.symm)
    exact ⟨a, hmem, c, (hbuilt.consistent.below hbelow).1, hway.tail hbelow, ha, hc⟩

/-- A schema that has been loaded is loadable. -/
theorem loadable : s.Loadable g₀ where
  means := fun source hsource => by
    obtain ⟨id, hdenotes⟩ := h.exists_denotes hsource
    exact ⟨_, hdenotes.2⟩
  parents := fun d hd source hsource t ht => by
    obtain ⟨id, above, habove, hdenotes⟩ := h.exists_parent hd hsource
    obtain ⟨hmem, hsome⟩ := h.stage.built.consistent.parents id above habove
    rw [← hdenotes.2.unique ht]
    exact h.classTerm hmem hsome
  -- A cycle of declarations would be one of the graph.
  acyclic := fun t hcycle => by
    obtain ⟨a, hmem, b, hmem', hway, ha, hb⟩ := h.exists_transGen hcycle
    cases h.stage.built.term_injective hmem hmem' (ha.trans hb.symm)
    exact h.stage.built.acyclic a hway

end Loaded

end Schema

end GraphCodec
