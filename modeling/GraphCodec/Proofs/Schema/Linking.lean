import GraphCodec.Proofs.Schema.Meaning
import GraphCodec.Proofs.Types.Lineage

/-!
# What linking does

While the classes of a schema are linked, the graph only grows by structural types that its type
expressions speak of, and a superclass is only put above a class that names it
(`Schema.Stage`).  When a class has been linked, its body says what its declaration says
(`Schema.Stage.linkClass`).

Whether linking succeeds does not depend on the order of the declarations: it does when all
expressions mean something, the classes above a class are classes, and no class is above itself
(`Schema.Loadable`).
-/

namespace GraphCodec

/-- The type expressions for what is above a class. -/
def ClassDecl.parents (d : ClassDecl) : List String := d.superclass.toList ++ d.interfaces

/-- The type expressions of a class. -/
def ClassDecl.sources (d : ClassDecl) : List String := d.parents ++ d.fields.map (·.type)

namespace Schema

/-- The classes and interfaces of a schema. -/
def classes (s : Schema) : List ClassDecl := s.types.filterMap (·.classDecl?)

/-- The type expressions of a schema. -/
def sources (s : Schema) : List String := s.classes.flatMap (·.sources) ++ s.roots

/-- Whether a type expression means a term. -/
def Means (names : Names) (source : String) (t : TypeTerm) : Prop :=
  ∃ e, TypeExpr.parse source = .ok e ∧ e.meaning? names = some t

/-- Whether a type expression stands for a place of a graph. -/
def Denotes (names : Names) (g : TypeGraph) (source : String) (id : TypeId) : Prop :=
  id ∈ g.places ∧ Means names source (g.term id)

/-- Whether a class is declared right below another type. -/
def Above (s : Schema) (names : Names) (t u : TypeTerm) : Prop :=
  ∃ d ∈ s.classes, t = .declared d.name ∧
    ∃ source, d.superclass = some source ∧ Means names source u

end Schema

open TypeGraph

variable {names : Names} {s : Schema} {g₀ g g' : TypeGraph} {id : TypeId}

namespace Schema

/-- An expression means one thing only. -/
theorem Means.unique {source : String} {t u : TypeTerm} (h : Means names source t)
    (h' : Means names source u) : t = u := by
  obtain ⟨e, he, ht⟩ := h
  obtain ⟨e', he', hu⟩ := h'
  rw [he, Except.ok.injEq] at he'
  rw [← he', ht, Option.some.injEq] at hu
  exact hu

/-- The meaning of an expression depends on plain names only. -/
theorem means_congr {names' : Names} (h : ∀ path, PlainName path → names path = names' path)
    {source : String} {t : TypeTerm} : Means names source t ↔ Means names' source t := by
  constructor
  · rintro ⟨e, he, ht⟩
    exact ⟨e, he, by rw [← TypeExpr.meaning?_congr h (TypeExpr.plain_of_parse he), ht]⟩
  · rintro ⟨e, he, ht⟩
    exact ⟨e, he, by rw [TypeExpr.meaning?_congr h (TypeExpr.plain_of_parse he), ht]⟩

/-- What an expression denotes stays the same while a graph grows. -/
theorem Denotes.mono {source : String} (h : Denotes names g source id) (hg : g.Carries g') :
    Denotes names g' source id :=
  ⟨hg.places id h.1, by rw [hg.term h.1]; exact h.2⟩

/-! ### Resolving -/

/-- Resolving an expression puts the type that it means into the graph. -/
theorem puts_of_resolve (hg : g.Built) {context source : String}
    (h : resolve g context source = .ok (id, g')) :
    ∃ t, Means g.names source t ∧ g.Puts id g' t := by
  unfold Schema.resolve TypeExpr.resolveIn at h
  cases hparse : TypeExpr.parse source with
  | error e =>
    rw [hparse] at h
    cases h
  | ok e =>
    rw [hparse] at h
    dsimp only at h
    split at h
    case h_1 heq =>
      rw [Except.ok.injEq, Prod.mk.injEq] at h
      rw [h.1, h.2] at heq
      obtain ⟨t, ht, hputs⟩ := TypeExpr.puts_of_resolve hg (TypeExpr.plain_of_parse hparse) heq
      exact ⟨t, ⟨e, hparse, ht⟩, hputs⟩
    case h_2 => cases h

/-- An expression that means something is resolved. -/
theorem exists_resolve (hg : g.Built) (context : String) {source : String} {t : TypeTerm}
    (h : Means g.names source t) : ∃ id g', resolve g context source = .ok (id, g') := by
  obtain ⟨e, he, ht⟩ := h
  obtain ⟨id, g', hyields⟩ := TypeExpr.exists_resolve hg (TypeExpr.plain_of_parse he) ht
  refine ⟨id, g', ?_⟩
  unfold Schema.resolve TypeExpr.resolveIn
  rw [he]
  dsimp only
  unfold Resolving.Yields at hyields
  rw [hyields]

/-! ### Stages of loading -/

/-- What holds of every graph while a schema is loaded, after its types have been declared. -/
structure Stage (s : Schema) (g₀ g : TypeGraph) : Prop where
  base : g₀.Built
  built : g.Built
  carries : g₀.Carries g
  /-- A new type is structural, and part of what an expression means. -/
  new : ∀ id ∈ g.places, id ∉ g₀.places → (g.kind id).parts ≠ [] ∧
    ∃ source ∈ s.sources, ∃ t, Means g₀.names source t ∧ (g.term id).Within t
  /-- A class is only below the superclass that it declares. -/
  above : ∀ id above, g.Below id above → s.Above g₀.names (g.term id) (g.term above)

/-- What happens to a graph while one class is linked. -/
structure Touches (id : TypeId) (g g' : TypeGraph) : Prop where
  carries : g.Carries g'
  others : ∀ x ∈ g.places, x ≠ id → g'.classBody? x = g.classBody? x

private theorem Touches.refl (id : TypeId) (g : TypeGraph) :
    Touches id g g := ⟨.refl g, fun _ _ _ => rfl⟩

/-- What touches only one class twice touches only that class. -/
theorem Touches.trans {g'' : TypeGraph} (h : Touches id g g') (h' : Touches id g' g'') :
    Touches id g g'' where
  carries := h.carries.trans h'.carries
  others := fun x hx hne => (h'.others x (h.carries.places x hx) hne).trans (h.others x hx hne)

/-- A class below another one has a place. -/
theorem mem_places_of_below {above : TypeId} (h : g.Below id above) : id ∈ g.places := by
  refine Decidable.byContradiction fun hnot => ?_
  rw [Below, superclass?, classBody?, kind_of_not_mem hnot] at h
  cases h

/-- A class has the body that it is given. -/
private theorem classBody?_setBody_self {body body' : ClassBody} (hid : id ∈ g.places)
    (h : g.classBody? id = some body) : (g.setBody id body').classBody? id = some body' := by
  rw [classBody?] at h
  rw [classBody?, kind_setBody_self hid, TypeKind.classBody?_withBody, h]
  rfl

/-- Giving a class another body touches only that class. -/
private theorem touches_setBody {body body' : ClassBody} (h : g.classBody? id = some body)
    (hlibrary : body'.isLibrary = body.isLibrary) (habstract : body'.isAbstract = body.isAbstract)
    (harity : body'.arity = body.arity) : Touches id g (g.setBody id body') where
  carries := .setBody h hlibrary habstract harity
  others := fun x _ hne => by rw [classBody?, kind_setBody_of_ne hne, classBody?]

/-- What holds when an expression has been resolved to a place. -/
structure Resolved (s : Schema) (g₀ g : TypeGraph) (source : String) (id : TypeId)
    (g' : TypeGraph) : Prop where
  stage : Stage s g₀ g'
  denotes : Denotes g₀.names g' source id
  carries : g.Carries g'
  classBody? : ∀ x ∈ g.places, g'.classBody? x = g.classBody? x

/-- What holds when one expression of a class has been linked: the class has a body in which the
place stands that the expression denotes. -/
structure Linked (s : Schema) (g₀ g : TypeGraph) (id : TypeId) (source : String) (type : TypeId)
    (body : ClassBody) (g' : TypeGraph) : Prop where
  stage : Stage s g₀ g'
  touches : Touches id g g'
  denotes : Denotes g₀.names g' source type
  classBody? : g'.classBody? id = some body

namespace Stage

variable (h : Stage s g₀ g)

include h

theorem names_eq {path : String} (hpath : PlainName path) : g.names path = g₀.names path :=
  h.base.names_eq h.built h.carries (fun id hid hnot => (h.new id hid hnot).1) hpath

/-- Expressions mean the same at every stage. -/
theorem means_iff {source : String} {t : TypeTerm} :
    Means g.names source t ↔ Means g₀.names source t :=
  means_congr fun _ => h.names_eq

/-- Resolving an expression of the schema puts a type that it denotes into the graph. -/
theorem resolve {context source : String} (hsource : source ∈ s.sources)
    (hresolve : Schema.resolve g context source = .ok (id, g')) : Resolved s g₀ g source id g' := by
  obtain ⟨t, ht, hputs⟩ := puts_of_resolve h.built hresolve
  rw [h.means_iff] at ht
  have hbuilt : g'.Built := (resolve_eq_ok h.built hresolve).1.built h.built
  refine ⟨⟨h.base, hbuilt, h.carries.trans hputs.adds.carries, fun x hx hnot => ?_,
    fun x y hxy => ?_⟩, ⟨hputs.mem, by rw [hputs.term]; exact ht⟩, hputs.adds.carries,
    hputs.adds.classBody?⟩
  · -- A type was there before, or is part of what the expression means.
    by_cases hmem : x ∈ g.places
    · rw [hputs.adds.carries.parts hmem, hputs.adds.carries.term hmem]
      exact h.new x hmem hnot
    · obtain ⟨hparts, hwithin⟩ := hputs.adds.new x hx hmem
      exact ⟨hparts, source, hsource, t, ht, hwithin⟩
  · -- What resolving puts into the graph is structural, so it is below nothing.
    have hx : x ∈ g.places := by
      refine Decidable.byContradiction fun hnot => ?_
      have hparts := (hputs.adds.new x (mem_places_of_below hxy) hnot).1
      rw [Below, superclass?, TypeGraph.classBody?, TypeKind.classBody?_of_parts hparts] at hxy
      cases hxy
    have hold : g.Below x y := by
      rw [Below, superclass?, hputs.adds.classBody? x hx] at hxy
      exact hxy
    have hy := (h.built.consistent.below hold).1
    rw [hputs.adds.carries.term hx, hputs.adds.carries.term hy]
    exact h.above x y hold

/-- Putting another body into a class keeps the stage if its superclass is the declared one. -/
private theorem setBody {body body' : ClassBody} (hbody : g.classBody? id = some body)
    (hbuilt : (g.setBody id body').Built) (hlibrary : body'.isLibrary = body.isLibrary)
    (habstract : body'.isAbstract = body.isAbstract) (harity : body'.arity = body.arity)
    (habove : ∀ above, body'.superclass = some above →
      body.superclass = some above ∨ s.Above g₀.names (g.term id) (g.term above)) :
    Stage s g₀ (g.setBody id body') := by
  have hcarries : g.Carries (g.setBody id body') := .setBody hbody hlibrary habstract harity
  refine ⟨h.base, hbuilt, h.carries.trans hcarries, fun x hx hnot => ?_, fun x y hxy => ?_⟩
  -- Places and what stands there have not changed.
  · have hx : x ∈ g.places := mem_places_setBody.1 hx
    rw [hcarries.parts hx, hcarries.term hx]
    exact h.new x hx hnot
  -- The class below is one from before, or the one with the new body.
  · have hx : x ∈ g.places := mem_places_setBody.1 (mem_places_of_below hxy)
    have hy : y ∈ g.places := mem_places_setBody.1 (hbuilt.consistent.below hxy).1
    rw [hcarries.term hx, hcarries.term hy]
    obtain ⟨b, hb, hsuper⟩ := Option.bind_eq_some_iff.1 hxy
    rcases classBody?_setBody hb with hold | ⟨rfl, -, rfl⟩
    · exact h.above x y (by rw [Below, superclass?_eq_some hold]; exact hsuper)
    · rcases habove y hsuper with hold | hnew
      · exact h.above x y (by rw [Below, superclass?_eq_some hbody]; exact hold)
      · exact hnew

end Stage

/-- Putting the type that has been resolved into the body of a class. -/
theorem Resolved.setBody {g₁ : TypeGraph} {source : String} {type : TypeId}
    (h : Resolved s g₀ g source type g₁) (hid : id ∈ g.places) {body body' : ClassBody}
    (hbody : g.classBody? id = some body) (hbuilt : (g₁.setBody id body').Built)
    (hlibrary : body'.isLibrary = body.isLibrary) (habstract : body'.isAbstract = body.isAbstract)
    (harity : body'.arity = body.arity) (habove : ∀ above, body'.superclass = some above →
      body.superclass = some above ∨ s.Above g₀.names (g.term id) (g₁.term above)) :
    Linked s g₀ g id source type body' (g₁.setBody id body') := by
  -- The class was there before the expression was resolved.
  have hid₁ := h.carries.places id hid
  have hbody₁ : g₁.classBody? id = some body := (h.classBody? id hid).trans hbody
  have htouch : Touches id g₁ (g₁.setBody id body') :=
    touches_setBody hbody₁ hlibrary habstract harity
  rw [← h.carries.term hid] at habove
  exact ⟨h.stage.setBody hbody₁ hbuilt hlibrary habstract harity habove,
    .trans ⟨h.carries, fun x hx _ => h.classBody? x hx⟩ htouch, h.denotes.mono htouch.carries,
    classBody?_setBody_self hid₁ hbody₁⟩

/-! ### Linking one class -/

namespace Stage

variable (h : Stage s g₀ g) {d : ClassDecl} (hid : id ∈ g.places) {body : ClassBody}
  (hbody : g.classBody? id = some body)

include h hid hbody

/-- The superclass of a class that has none yet becomes the one that it declares. -/
theorem linkSuperclass (hd : d ∈ s.classes) (hterm : g.term id = .declared d.name)
    (hnone : body.superclass = none) (hlink : Schema.linkSuperclass g id d = .ok g') :
    Stage s g₀ g' ∧ Touches id g g' ∧ ∃ above, Option.Rel (Denotes g₀.names g') d.superclass above ∧
      g'.classBody? id = some { body with superclass := above } := by
  unfold Schema.linkSuperclass at hlink
  cases hsuper : d.superclass with
  | none =>
    -- Without a superclass nothing is done.
    rw [hsuper] at hlink
    cases hlink
    exact ⟨h, .refl id g, none, .none, by rw [hbody, ← hnone]⟩
  | some source =>
    rw [hsuper] at hlink
    -- The superclass is resolved first, and then put above the class.
    obtain ⟨⟨above, g₁⟩, hresolve, hlink⟩ := Except.bind_eq_ok.1 hlink
    have hsource : source ∈ s.sources := by
      refine List.mem_append_left _ (List.mem_flatMap.2 ⟨d, hd, List.mem_append_left _ ?_⟩)
      exact List.mem_append_left _ (by rw [hsuper]; exact List.mem_singleton_self source)
    have h₁ := h.resolve hsource hresolve
    have hset := declaring_eq_ok.1 hlink
    have hbuilt : g'.Built := .setSuperclass h₁.stage.built h₁.denotes.1 hset
    obtain ⟨b, hb, -, -, rfl⟩ := setSuperclass_eq_ok.1 hset
    rw [h₁.classBody? id hid, hbody, Option.some.injEq] at hb
    subst hb
    have hlinked := h₁.setBody hid hbody hbuilt rfl rfl rfl fun x hx => Or.inr (by
      rw [← Option.some.inj hx, hterm]
      exact ⟨d, hd, rfl, source, hsuper, h₁.denotes.2⟩)
    exact ⟨hlinked.stage, hlinked.touches, some above, .some hlinked.denotes, hlinked.classBody?⟩

/-- An interface that is declared is put above a class, behind the others. -/
theorem linkInterface {source : String} (hsource : source ∈ s.sources)
    (hlink : Schema.linkInterface id d g source = .ok g') : ∃ above,
      Linked s g₀ g id source above { body with interfaces := body.interfaces ++ [above] } g' := by
  unfold Schema.linkInterface at hlink
  obtain ⟨⟨above, g₁⟩, hresolve, hlink⟩ := Except.bind_eq_ok.1 hlink
  have h₁ := h.resolve hsource hresolve
  have hadd := declaring_eq_ok.1 hlink
  have hbuilt : g'.Built := .addInterface h₁.stage.built h₁.denotes.1 hadd
  obtain ⟨b, hb, -, rfl⟩ := addInterface_eq_ok.1 hadd
  rw [h₁.classBody? id hid, hbody, Option.some.injEq] at hb
  subst hb
  exact ⟨above, h₁.setBody hid hbody hbuilt rfl rfl rfl fun x hx => Or.inl hx⟩

/-- A field that is declared is added to a class, behind the others. -/
theorem linkField {field : FieldDecl} (hsource : field.type ∈ s.sources)
    (hlink : Schema.linkField id d g field = .ok g') : ∃ type, Linked s g₀ g id field.type type
      { body with fields := body.fields ++ [⟨field.name, type, field.isPrivate, field.modifiers⟩] }
      g' := by
  unfold Schema.linkField at hlink
  obtain ⟨⟨type, g₁⟩, hresolve, hlink⟩ := Except.bind_eq_ok.1 hlink
  have h₁ := h.resolve hsource hresolve
  have hadd := declaring_eq_ok.1 hlink
  have hbuilt : g'.Built := .addField h₁.stage.built hadd
  obtain ⟨b, hb, rfl⟩ := addField_eq_ok.1 hadd
  rw [h₁.classBody? id hid, hbody, Option.some.injEq] at hb
  subst hb
  exact ⟨type, h₁.setBody hid hbody hbuilt rfl rfl rfl fun x hx => Or.inl hx⟩

end Stage

/-- Linking one expression after another puts what they denote into a class, in their order. -/
private theorem Stage.foldlM {α β : Type} {step : TypeGraph → α → Except SchemaError TypeGraph}
    (source : α → String) (item : α → TypeId → β) (put : ClassBody → List β → ClassBody)
    (hnil : ∀ body, put body [] = body)
    (hcons : ∀ body b bs, put (put body [b]) bs = put body (b :: bs))
    (hstep : ∀ g body a g', Stage s g₀ g → id ∈ g.places → g.classBody? id = some body →
      source a ∈ s.sources → step g a = .ok g' →
        ∃ type, Linked s g₀ g id (source a) type (put body [item a type]) g')
    {as : List α} {body : ClassBody} (h : Stage s g₀ g) (hid : id ∈ g.places)
    (hbody : g.classBody? id = some body) (hsources : ∀ a ∈ as, source a ∈ s.sources)
    (hlink : as.foldlM step g = .ok g') :
    Stage s g₀ g' ∧ Touches id g g' ∧ ∃ bs, g'.classBody? id = some (put body bs) ∧
      List.Forall₂ (fun a b => ∃ type, b = item a type ∧ Denotes g₀.names g' (source a) type)
        as bs := by
  -- What has been put into the body so far is carried along, so the body is general.
  induction as generalizing g body with
  | nil =>
    cases hlink
    exact ⟨h, .refl id _, [], by rw [hbody, hnil], .nil⟩
  | cons a rest ih =>
    rw [List.foldlM_cons] at hlink
    obtain ⟨g₁, hfirst, hrest⟩ := Except.bind_eq_ok.1 hlink
    obtain ⟨type, h₁⟩ := hstep g body a g₁ h hid hbody (hsources a List.mem_cons_self) hfirst
    obtain ⟨h', htouch, bs, hbody', hbs⟩ := ih h₁.stage (h₁.touches.carries.places id hid)
      h₁.classBody? (fun x hx => hsources x (List.mem_cons_of_mem _ hx)) hrest
    -- What was put in first stays in front.
    exact ⟨h', h₁.touches.trans htouch, item a type :: bs, by rw [hbody', hcons],
      .cons ⟨type, rfl, h₁.denotes.mono htouch.carries⟩ hbs⟩

/-- What relates two optional things may be weakened. -/
private theorem rel_imp {α β : Type} {r r' : α → β → Prop} {a : Option α} {b : Option β}
    (h : ∀ a b, r a b → r' a b) : Option.Rel r a b → Option.Rel r' a b
  | .none => .none
  | .some hab => .some (h _ _ hab)

/-- Whether a field is one that is declared, of a type that its expression stands for. -/
def DenotesField (names : Names) (g : TypeGraph) (field : FieldDecl) (f : Field) : Prop :=
  ∃ type, f = ⟨field.name, type, field.isPrivate, field.modifiers⟩ ∧ Denotes names g field.type type

/-- Whether the body of a class says what a declaration says. -/
structure Describes (names : Names) (g : TypeGraph) (d : ClassDecl) (body : ClassBody) : Prop where
  superclass : Option.Rel (Denotes names g) d.superclass body.superclass
  interfaces : List.Forall₂ (Denotes names g) d.interfaces body.interfaces
  fields : List.Forall₂ (DenotesField names g) d.fields body.fields

/-- What a body says stays so while a graph grows. -/
theorem Describes.mono {d : ClassDecl} {body : ClassBody} (h : Describes names g d body)
    (hg : g.Carries g') : Describes names g' d body where
  superclass := rel_imp (fun _ _ hdenotes => hdenotes.mono hg) h.superclass
  interfaces := h.interfaces.imp fun _ _ hdenotes => hdenotes.mono hg
  fields := h.fields.imp fun _ _ ⟨type, heq, hdenotes⟩ => ⟨type, heq, hdenotes.mono hg⟩

/-- Whether a class of a graph is one that is declared, and has nothing in its body yet. -/
structure Unlinked (s : Schema) (g : TypeGraph) (d : ClassDecl) (id : TypeId) : Prop where
  decl : d ∈ s.classes
  mem : id ∈ g.places
  term : g.term id = .declared d.name
  body : ∃ body, g.classBody? id = some body ∧ body.superclass = none ∧ body.interfaces = [] ∧
    body.fields = []

/-- A class is still to be linked when another one is touched. -/
theorem Unlinked.touches {d : ClassDecl} {x : TypeId} (h : Unlinked s g d x) (hg : Touches id g g')
    (hne : x ≠ id) : Unlinked s g' d x where
  decl := h.decl
  mem := hg.carries.places x h.mem
  term := (hg.carries.term h.mem).trans h.term
  body := by
    rw [hg.others x h.mem hne]
    exact h.body

/-- A class that is linked says what its declaration says. -/
theorem Stage.linkClass (h : Stage s g₀ g) {d : ClassDecl} (hd : Unlinked s g d id)
    (hlink : Schema.linkClass g id d = .ok g') :
    Stage s g₀ g' ∧ Touches id g g' ∧
      ∃ body, g'.classBody? id = some body ∧ Describes g₀.names g' d body := by
  have hsources : ∀ x ∈ d.sources, x ∈ s.sources := fun x hx =>
    List.mem_append_left _ (List.mem_flatMap.2 ⟨d, hd.decl, hx⟩)
  obtain ⟨body, hbody, hsuper, hinter, hfields⟩ := hd.body
  -- What is above the class, its interfaces and its fields have been empty so far.
  unfold Schema.linkClass at hlink
  obtain ⟨g₁, hlink₁, hlink⟩ := Except.bind_eq_ok.1 hlink
  obtain ⟨g₂, hlink₂, hlink₃⟩ := Except.bind_eq_ok.1 hlink
  -- The superclass, the interfaces and the fields are linked one after another.
  obtain ⟨h₁, htouch₁, above, habove, hbody₁⟩ :=
    h.linkSuperclass hd.mem hbody hd.decl hd.term hsuper hlink₁
  have hid₁ := htouch₁.carries.places id hd.mem
  obtain ⟨h₂, htouch₂, interfaces, hbody₂, hinterfaces⟩ := Stage.foldlM
    (fun x => x) (fun _ type => type)
    (fun body ids => { body with interfaces := body.interfaces ++ ids })
    (fun _ => by rw [List.append_nil])
    (fun _ _ _ => by rw [List.append_assoc, List.singleton_append])
    (fun _ _ _ _ h hid hbody hsource => h.linkInterface hid hbody hsource) h₁ hid₁ hbody₁
    (fun x hx => hsources x (List.mem_append_left _ (List.mem_append_right _ hx))) hlink₂
  have hid₂ := htouch₂.carries.places id hid₁
  obtain ⟨h₃, htouch₃, fields, hbody₃, hfields'⟩ := Stage.foldlM
    (·.type) (fun field type => (⟨field.name, type, field.isPrivate, field.modifiers⟩ : Field))
    (fun body fields => { body with fields := body.fields ++ fields })
    (fun _ => by rw [List.append_nil])
    (fun _ _ _ => by rw [List.append_assoc, List.singleton_append])
    (fun _ _ _ _ h hid hbody hsource => h.linkField hid hbody hsource) h₂ hid₂ hbody₂
    (fun field hfield => hsources _ (List.mem_append_right _ (List.mem_map_of_mem hfield))) hlink₃
  -- What an expression denotes stays the same while others are linked.
  refine ⟨h₃, (htouch₁.trans htouch₂).trans htouch₃, _, hbody₃, ?_, ?_, ?_⟩
  · exact rel_imp (fun _ _ hdenotes => hdenotes.mono (htouch₂.trans htouch₃).carries) habove
  · rw [hinter, List.nil_append]
    refine hinterfaces.imp fun _ _ ⟨_, heq, hdenotes⟩ => ?_
    rw [heq]
    exact hdenotes.mono htouch₃.carries
  · rw [hfields, List.nil_append]
    exact hfields'

/-! ### Linking all classes -/

/-- What holds of the graph when classes have been linked. -/
structure LinkedAll (s : Schema) (g₀ g : TypeGraph) (pairs : List (TypeDecl × TypeId))
    (g' : TypeGraph) : Prop where
  stage : Stage s g₀ g'
  carries : g.Carries g'
  others : ∀ x ∈ g.places, x ∉ pairs.map (·.2) → g'.classBody? x = g.classBody? x
  describes : ∀ p ∈ pairs, ∀ d, p.1.classDecl? = some d →
    ∃ body, g'.classBody? p.2 = some body ∧ Describes g₀.names g' d body

/-- All classes are linked one after another. -/
theorem Stage.linkTypes (h : Stage s g₀ g) {pairs : List (TypeDecl × TypeId)}
    (hpairs : ∀ p ∈ pairs, ∀ d, p.1.classDecl? = some d → Unlinked s g d p.2)
    (hnodup : (pairs.map (·.2)).Nodup) (hlink : Schema.linkTypes g pairs = .ok g') :
    LinkedAll s g₀ g pairs g' := by
  induction pairs generalizing g with
  | nil =>
    cases hlink
    exact ⟨h, .refl _, fun _ _ _ => rfl, fun _ hp => nomatch hp⟩
  | cons p pairs ih =>
    obtain ⟨decl, id⟩ := p
    rw [List.map_cons, List.nodup_cons] at hnodup
    have hrest : ∀ p ∈ pairs, ∀ d, p.1.classDecl? = some d → Unlinked s g d p.2 := fun p hp =>
      hpairs p (List.mem_cons_of_mem _ hp)
    unfold Schema.linkTypes at hlink
    split at hlink
    case h_1 d hd =>
      obtain ⟨g₁, hfirst, hlink⟩ := Except.bind_eq_ok.1 hlink
      have hunlinked : Unlinked s g d id := hpairs (decl, id) List.mem_cons_self d hd
      obtain ⟨h₁, htouch, body, hbody, hdescribes⟩ := h.linkClass hunlinked hfirst
      have hmem₁ : id ∈ g₁.places := htouch.carries.places id hunlinked.mem
      -- The classes that are still to be linked stand at other places, so they were not touched.
      have hall := ih h₁ (fun p hp d hd => (hrest p hp d hd).touches htouch fun heq =>
        hnodup.1 (List.mem_map.2 ⟨p, hp, heq⟩)) hnodup.2 hlink
      refine ⟨hall.stage, htouch.carries.trans hall.carries, fun x hx hnot => ?_,
        fun p hp d' hd' => ?_⟩
      -- A class that is not among the pairs has not been touched.
      · rw [List.map_cons, List.mem_cons, not_or] at hnot
        rw [hall.others x (htouch.carries.places x hx) hnot.2, htouch.others x hx hnot.1]
      -- The first class says what it declares, and so do the others.
      · rcases List.mem_cons.1 hp with rfl | hp
        · cases hd.symm.trans hd'
          exact ⟨body, (hall.others id hmem₁ hnodup.1).trans hbody, hdescribes.mono hall.carries⟩
        · exact hall.describes p hp d' hd'
    -- Enums and types of a library are not linked.
    case h_2 hnone =>
      have hall := ih h hrest hnodup.2 hlink
      refine ⟨hall.stage, hall.carries, fun x hx hnot => ?_, fun p hp d hd => ?_⟩
      · rw [List.map_cons, List.mem_cons, not_or] at hnot
        exact hall.others x hx hnot.2
      · rcases List.mem_cons.1 hp with rfl | hp
        · cases hnone.symm.trans hd
        · exact hall.describes p hp d hd

/-- Resolving the roots puts what they denote into the graph and leaves the classes as they are. -/
theorem Stage.resolveRoots (h : Stage s g₀ g) {sources : List String} {ids : List TypeId}
    (hsources : ∀ source ∈ sources, source ∈ s.sources)
    (hroots : Schema.resolveRoots g sources = .ok (ids, g')) :
    Stage s g₀ g' ∧ g.Carries g' ∧ (∀ x ∈ g.places, g'.classBody? x = g.classBody? x) ∧
      List.Forall₂ (Denotes g₀.names g') sources ids := by
  induction sources generalizing g ids with
  | nil =>
    cases hroots
    exact ⟨h, .refl _, fun _ _ => rfl, .nil⟩
  | cons source rest ih =>
    unfold Schema.resolveRoots at hroots
    obtain ⟨⟨id, g₁⟩, hfirst, hroots⟩ := Except.bind_eq_ok.1 hroots
    obtain ⟨⟨ids', g₂⟩, hrest, hroots⟩ := Except.bind_eq_ok.1 hroots
    -- The first root is resolved, and then the others.
    cases hroots
    have h₁ := h.resolve (hsources source List.mem_cons_self) hfirst
    obtain ⟨h₂, hcarries, hbodies, hids⟩ :=
      ih h₁.stage (fun x hx => hsources x (List.mem_cons_of_mem _ hx)) hrest
    exact ⟨h₂, h₁.carries.trans hcarries,
      fun x hx => (hbodies x (h₁.carries.places x hx)).trans (h₁.classBody? x hx),
      .cons (h₁.denotes.mono hcarries) hids⟩

end Schema

end GraphCodec
