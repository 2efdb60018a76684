import Mathlib
import GraphCodec.Example.Network
import GraphCodec.Proofs.Types.Built

/-!
# What loading does

A schema is loaded by declarations, so the graph that it yields can be built
(`Schema.built_of_load`).  Only classes and interfaces that the schema declares are linked; the
classes of a library, those that every graph starts with among them, stay without superclass,
interfaces and fields (`Schema.libraryPlain_of_load`).

Resolving a type expression only puts structural types into the graph (`TypeGraph.Extends`), so what
was there stays as it was.
-/

namespace GraphCodec

namespace TypeGraph

variable {g g' g'' : TypeGraph} {id : TypeId}

/-! ### Classes of libraries -/

/-- Whether the classes of a library have nothing above them and no fields. -/
def LibraryPlain (g : TypeGraph) : Prop :=
  ∀ id body, g.classBody? id = some body → body.isLibrary →
    body.superclass = none ∧ body.interfaces = [] ∧ body.fields = []

/-- No class of the first graph has anything in its body. -/
private theorem prelude_plain : ∀ i < 32, (prelude.classBody? ⟨i⟩).all (fun body =>
    body.superclass = none ∧ body.interfaces = [] ∧ body.fields = []) := by
  decide

/-- The classes of the first graph are plain. -/
private theorem libraryPlain_prelude : prelude.LibraryPlain := by
  intro id body hbody _
  by_cases hlt : id.index < 32
  · have h := prelude_plain id.index hlt
    rw [show (⟨id.index⟩ : TypeId) = id from rfl, hbody] at h
    simpa using h
  · rw [classBody?, kind_of_not_mem fun h => hlt (mem_places.1 h)] at hbody
    cases hbody
    exact ⟨rfl, rfl, rfl⟩

/-- What the class at a place declares after another type was put into the graph. -/
private theorem classBody?_push {t : TypeDescriptor} {parts : ∀ p ∈ t.kind.parts, p.index < g.size}
    {body : ClassBody} (h : (g.push t parts).classBody? id = some body) :
    g.classBody? id = some body ∨ id = g.next ∧ t.kind.classBody? = some body := by
  -- The place was there before, or it is the new one, or there is nothing at it.
  by_cases hmem : id ∈ g.places
  · rw [classBody?_push_of_mem hmem] at h
    exact Or.inl h
  · by_cases hnext : id = g.next
    · rw [classBody?, kind, hnext, descriptor_push_next] at h
      exact Or.inr ⟨hnext, h⟩
    · have hout : id ∉ (g.push t parts).places := fun h =>
        (mem_places_push.1 h).elim hmem hnext
      rw [classBody?, kind_of_not_mem hout] at h
      rw [classBody?, kind_of_not_mem hmem]
      exact Or.inl h

/-- Putting a type into a graph keeps the classes of a library plain if the new type is. -/
private theorem LibraryPlain.push (hg : g.LibraryPlain) {t : TypeDescriptor}
    {parts : ∀ p ∈ t.kind.parts, p.index < g.size}
    (h : ∀ body, t.kind.classBody? = some body →
      body.superclass = none ∧ body.interfaces = [] ∧ body.fields = []) :
    (g.push t parts).LibraryPlain := by
  intro id body hbody hlib
  rcases classBody?_push hbody with hold | ⟨_, hnew⟩
  · exact hg id body hold hlib
  · exact h body hnew

/-- A change of a class of the program leaves the classes of libraries as they are. -/
private theorem LibraryPlain.setBody (hg : g.LibraryPlain) {body : ClassBody}
    (h : body.isLibrary = false) : (g.setBody id body).LibraryPlain := by
  intro x b hb hlib
  rcases classBody?_setBody hb with hold | ⟨_, _, rfl⟩
  · exact hg x b hold hlib
  · rw [h] at hlib
    cases hlib

/-! ### Growing graphs -/

/-- What holds between a graph and what it grows to while a schema is loaded: no place is lost, and
a class stays a class of the same sort. -/
structure Grows (g g' : TypeGraph) : Prop where
  places : ∀ id ∈ g.places, id ∈ g'.places
  body : ∀ id ∈ g.places, ∀ b, g.classBody? id = some b →
    ∃ b', g'.classBody? id = some b' ∧ b'.isLibrary = b.isLibrary

/-- A graph grows to itself. -/
private theorem Grows.refl (g : TypeGraph) : g.Grows g where
  places := fun _ h => h
  body := fun _ _ b hb => ⟨b, hb, rfl⟩

/-- Growing once and again is growing. -/
private theorem Grows.trans (h : g.Grows g') (h' : g'.Grows g'') : g.Grows g'' where
  places := fun id hid => h'.places id (h.places id hid)
  body := by
    intro id hid b hb
    obtain ⟨b', hb', hlib⟩ := h.body id hid b hb
    obtain ⟨b'', hb'', hlib'⟩ := h'.body id (h.places id hid) b' hb'
    exact ⟨b'', hb'', hlib'.trans hlib⟩

/-- A graph grows when a type is put into it. -/
private theorem Grows.push {t : TypeDescriptor} {parts : ∀ p ∈ t.kind.parts, p.index < g.size} :
    g.Grows (g.push t parts) where
  places := fun _ hid => mem_places_push.2 (Or.inl hid)
  body := fun id hid b hb => ⟨b, by rw [classBody?_push_of_mem hid, hb], rfl⟩

/-- A graph grows when a class is given another body of the same kind. -/
private theorem Grows.setBody {old body : ClassBody} (hold : g.classBody? id = some old)
    (hlib : body.isLibrary = old.isLibrary) : g.Grows (g.setBody id body) where
  places := fun _ hid => mem_places_setBody.2 hid
  body := by
    intro x _ b hb
    have hsome : ((g.setBody id body).classBody? x).isSome := by
      rw [isSome_classBody?_setBody, hb]
      rfl
    obtain ⟨b', hb'⟩ := Option.isSome_iff_exists.1 hsome
    refine ⟨b', hb', ?_⟩
    rcases classBody?_setBody hb' with h | ⟨rfl, _, rfl⟩
    · rw [hb, Option.some.injEq] at h
      rw [h]
    · rw [hold, Option.some.injEq] at hb
      rw [← hb, hlib]

/-! ### Structural types -/

/-- Whether a graph is another one with structural types put into it. -/
inductive Extends : TypeGraph → TypeGraph → Prop where
  | refl (g : TypeGraph) : Extends g g
  | array {g g' : TypeGraph} (component : TypeId) :
    Extends g g' → Extends g (g'.array component).2
  | parameterized {g g' g'' : TypeGraph} {raw id : TypeId} {arguments : List TypeId} :
    Extends g g' → g'.parameterized raw arguments = .ok (id, g'') → Extends g g''

/-- Extending a graph once and again is extending it. -/
theorem Extends.trans (h : g.Extends g') (h' : g'.Extends g'') : g.Extends g'' := by
  induction h' with
  | refl => exact h
  | array component _ ih => exact .array component ih
  | parameterized _ hp ih => exact .parameterized ih hp

/-- Extending a graph that can be built yields one that can be built. -/
theorem Extends.built (h : g.Extends g') (hg : g.Built) : g'.Built := by
  induction h with
  | refl => exact hg
  | array component _ ih => exact .array component ih
  | parameterized _ hp ih => exact .parameterized ih hp

/-- What holds of the graph with a structural type at the next place holds of the graph that shares
it. -/
private theorem extends_induction {P : TypeGraph → Prop}
    (hpush : ∀ g, P g → ∀ t : TypeDescriptor, t.kind.classBody? = none → ∀ parts,
      P (g.push t parts)) (h : g.Extends g') (hg : P g) : P g' := by
  induction h with
  | refl => exact hg
  -- Arrays are shared, and so are applications that are not the class itself.
  | array component _ ih => exact intern_induction ih fun parts _ => hpush _ ih _ rfl parts
  | parameterized _ hp ih =>
    rcases parameterized_eq_ok.1 hp with ⟨-, -, rfl⟩ | ⟨-, -, -, -, heq⟩
    · exact ih
    · rw [(Prod.mk.inj heq).2]
      exact intern_induction ih fun parts _ => hpush _ ih _ rfl parts

/-- Extending a graph keeps the classes of a library plain. -/
private theorem Extends.libraryPlain (h : g.Extends g') (hg : g.LibraryPlain) : g'.LibraryPlain :=
  extends_induction (fun _ hg t ht parts => hg.push fun body hbody => by
    rw [ht] at hbody
    cases hbody) h hg

theorem Extends.grows (h : g.Extends g') : g.Grows g' :=
  extends_induction (P := fun x => g.Grows x) (fun _ hg _ _ _ => hg.trans .push) h (.refl g)

/-- A type that is made of types of a graph has a place in the graph that shares it. -/
theorem fst_intern_mem {t : TypeDescriptor} (h : ∀ p ∈ t.kind.parts, p ∈ g.places) :
    (g.intern t).1 ∈ (g.intern t).2.places := by
  unfold intern
  split
  -- The type was there before, or it is put at the next place.
  case h_1 found heq => exact List.mem_of_find?_eq_some heq
  case h_2 =>
    have hlt : ∀ p ∈ t.kind.parts, p.index < g.size := fun p hp => mem_places.1 (h p hp)
    rw [dif_pos hlt]
    exact (show g.next ∈ (g.push t hlt).places from mem_places_push.2 (Or.inr rfl))

/-- An application of a class of the graph has a place in it. -/
private theorem parameterized_mem {raw : TypeId} {arguments : List TypeId}
    (h : g.parameterized raw arguments = .ok (id, g')) (hraw : raw ∈ g.places)
    (harguments : ∀ a ∈ arguments, a ∈ g.places) : id ∈ g'.places := by
  rcases parameterized_eq_ok.1 h with ⟨-, rfl, rfl⟩ | ⟨-, -, -, -, heq⟩
  · exact hraw
  -- The raw class and its arguments are the parts of the application.
  · have hmem := fst_intern_mem (g := g) (t := g.application raw arguments) (by
      intro p hp
      rcases List.mem_cons.1 hp with rfl | hp
      · exact hraw
      · exact harguments p hp)
    rw [← heq] at hmem
    exact hmem

/-- A graph starts with the primitive types. -/
theorem isPrelude_primitive (p : Primitive) : p.id.isPrelude := by
  rcases p with s | _
  · cases s <;> rfl
  · rfl

/-- What a path names is in the graph. -/
theorem typeNamed?_mem (hg : TypeId.firstDeclared ≤ g.size) {path : String}
    (h : g.typeNamed? path = some id) : id ∈ g.places := by
  have hlookup : ∀ name, g.lookup? name = some id → id ∈ g.places := fun name h =>
    List.mem_reverse.1 (List.mem_of_find?_eq_some h)
  unfold typeNamed? at h
  split at h
  -- A keyword names a primitive type, and any other path is looked up, also with the prefix.
  case h_1 p _ =>
    cases h
    exact mem_places.2 (Nat.lt_of_lt_of_le (of_decide_eq_true (isPrelude_primitive p)) hg)
  case h_2 =>
    split at h
    case h_1 found hfound =>
      cases h
      exact hlookup _ hfound
    case h_2 =>
      split at h
      · cases h
      · exact hlookup _ h

end TypeGraph

/-! ### Resolving type expressions -/

namespace Resolving

open TypeGraph

/-- A step that succeeds on a type graph: it yields this and that graph. -/
def Yields {α : Type} (x : Resolving α) (g : TypeGraph) (a : α) (g' : TypeGraph) : Prop :=
  (x.run g : Except TypeExpr.Error α × TypeGraph) = (.ok a, g')

variable {α β : Type} {g g' : TypeGraph}

/-- What is given yields itself and leaves the graph as it is. -/
theorem yields_pure {a b : α} : (pure a : Resolving α).Yields g b g' ↔ a = b ∧ g = g' := by
  show ((.ok a, g) : Except TypeExpr.Error α × TypeGraph) = (.ok b, g') ↔ _
  simp

/-- Steps one after the other yield what the second one yields on the graph of the first. -/
theorem yields_bind {x : Resolving α} {f : α → Resolving β} {b : β} :
    (x >>= f).Yields g b g' ↔ ∃ a g₁, x.Yields g a g₁ ∧ (f a).Yields g₁ b g' := by
  unfold Yields
  show (match (x.run g : Except TypeExpr.Error α × TypeGraph) with
    | (a, g₁) => (ExceptT.bindCont f a g₁ : Except TypeExpr.Error β × TypeGraph)) = _ ↔ _
  -- An error of the first step is one of both.
  rcases (x.run g : Except TypeExpr.Error α × TypeGraph) with ⟨e | a, g₁⟩
  · constructor
    · intro h
      cases h
    · rintro ⟨a, g₂, h, _⟩
      cases h
  · constructor
    · intro h
      exact ⟨a, g₁, rfl, h⟩
    · rintro ⟨a', g₂, h, h'⟩
      cases h
      exact h'

/-- Asking for the graph yields the graph. -/
theorem yields_get {a : TypeGraph} :
    (get : Resolving TypeGraph).Yields g a g' ↔ g = a ∧ g = g' := by
  show ((.ok g, g) : Except TypeExpr.Error TypeGraph × TypeGraph) = (.ok a, g') ↔ _
  simp

/-- A graph that is set is the graph from then on. -/
theorem yields_set {s : TypeGraph} {u : PUnit} :
    (set s : Resolving PUnit).Yields g u g' ↔ s = g' := by
  show ((.ok ⟨⟩, s) : Except TypeExpr.Error PUnit × TypeGraph) = (.ok u, g') ↔ _
  simp

/-- An error yields nothing. -/
theorem not_yields_throw {e : TypeExpr.Error} {a : α} :
    ¬(throw e : Resolving α).Yields g a g' := by
  show ((.error e, g) : Except TypeExpr.Error α × TypeGraph) ≠ (.ok a, g')
  simp

/-- A name yields a type of the graph, which stays as it is. -/
theorem named_yields {path : String} {id : TypeId} (h : (named path).Yields g id g') :
    g' = g ∧ g.typeNamed? path = some id := by
  unfold named at h
  obtain ⟨_, _, hget, h⟩ := yields_bind.1 h
  obtain ⟨rfl, rfl⟩ := yields_get.1 hget
  split at h
  case h_1 found hfound =>
    obtain ⟨rfl, rfl⟩ := yields_pure.1 h
    exact ⟨rfl, hfound⟩
  case h_2 => exact absurd h not_yields_throw

/-- An application is that of the graph. -/
theorem parameterized_yields {raw id : TypeId} {arguments : List TypeId}
    (h : (parameterized raw arguments).Yields g id g') :
    g.parameterized raw arguments = .ok (id, g') := by
  unfold parameterized at h
  obtain ⟨_, _, hget, h⟩ := yields_bind.1 h
  obtain ⟨rfl, rfl⟩ := yields_get.1 hget
  split at h
  case h_1 id' g'' heq =>
    obtain ⟨_, _, hset, h⟩ := yields_bind.1 h
    obtain rfl := yields_set.1 hset
    obtain ⟨rfl, rfl⟩ := yields_pure.1 h
    exact heq
  case h_2 => exact absurd h not_yields_throw

/-- Arrays of a type of the graph. -/
private theorem arrays_yields {element id : TypeId} {dims : Nat} (hmem : element ∈ g.places)
    (h : (arrays element dims).Yields g id g') : g.Extends g' ∧ id ∈ g'.places := by
  induction dims generalizing element g with
  | zero =>
    obtain ⟨rfl, rfl⟩ := yields_pure.1 h
    exact ⟨.refl _, hmem⟩
  -- One array is put in, and around it the others.
  | succ dims ih =>
    unfold arrays at h
    obtain ⟨_, _, hget, h⟩ := yields_bind.1 h
    obtain ⟨rfl, rfl⟩ := yields_get.1 hget
    obtain ⟨_, _, hset, h⟩ := yields_bind.1 h
    obtain rfl := yields_set.1 hset
    have hfirst : (g.array element).1 ∈ (g.array element).2.places :=
      fst_intern_mem fun p hp => by
        rw [List.mem_singleton.1 hp]
        exact hmem
    obtain ⟨hext, hid⟩ := ih hfirst h
    exact ⟨(Extends.array element (.refl g)).trans hext, hid⟩

end Resolving

namespace TypeExpr

open TypeGraph

mutual

/-- An expression that is resolved stands for a type of the graph, which only grows by structural
types. -/
theorem resolve_yields {g g' : TypeGraph} (hg : TypeId.firstDeclared ≤ g.size) {e : TypeExpr}
    {id : TypeId} (h : e.resolve.Yields g id g') : g.Extends g' ∧ id ∈ g'.places := by
  obtain ⟨path, arguments, dims⟩ := e
  unfold TypeExpr.resolve at h
  -- The path, the arguments, the application and the arrays are resolved one after another.
  obtain ⟨raw, g₀, hraw, h₀⟩ := Resolving.yields_bind.1 h
  obtain ⟨hsame, hnamed⟩ := Resolving.named_yields hraw
  rw [hsame] at h₀
  obtain ⟨ids, g₁, hids, h₁⟩ := Resolving.yields_bind.1 h₀
  obtain ⟨hext₁, hmem₁⟩ := resolveAll_yields hg hids
  obtain ⟨applied, g₂, happlied, h₂⟩ := Resolving.yields_bind.1 h₁
  have happlied := Resolving.parameterized_yields happlied
  have hrawMem := hext₁.grows.places _ (typeNamed?_mem hg hnamed)
  obtain ⟨hext₃, hid⟩ := Resolving.arrays_yields (parameterized_mem happlied hrawMem hmem₁) h₂
  exact ⟨(hext₁.trans (.parameterized (.refl _) happlied)).trans hext₃, hid⟩

/-- Expressions that are resolved stand for types of the graph. -/
theorem resolveAll_yields {g g' : TypeGraph} (hg : TypeId.firstDeclared ≤ g.size)
    {es : List TypeExpr} {ids : List TypeId} (h : (resolveAll es).Yields g ids g') :
    g.Extends g' ∧ ∀ id ∈ ids, id ∈ g'.places := by
  cases es with
  | nil =>
    unfold resolveAll at h
    obtain ⟨rfl, rfl⟩ := Resolving.yields_pure.1 h
    exact ⟨.refl _, fun id hid => nomatch hid⟩
  | cons e rest =>
    unfold resolveAll at h
    obtain ⟨id, g₁, hid, h₁⟩ := Resolving.yields_bind.1 h
    obtain ⟨hext₁, hmem₁⟩ := resolve_yields hg hid
    obtain ⟨ids', g₂, hids, h₂⟩ := Resolving.yields_bind.1 h₁
    obtain ⟨rfl, rfl⟩ := Resolving.yields_pure.1 h₂
    -- The graph has not become smaller.
    have hsize : TypeId.firstDeclared ≤ g₁.size := by
      have hlast : (⟨31⟩ : TypeId) ∈ g₁.places :=
        hext₁.grows.places _ (mem_places.2 hg)
      exact mem_places.1 hlast
    obtain ⟨hext₂, hmem₂⟩ := resolveAll_yields hsize hids
    refine ⟨hext₁.trans hext₂, fun x hx => ?_⟩
    -- The first type stays in the graph while the others are resolved.
    rcases List.mem_cons.1 hx with rfl | hx
    · exact hext₂.grows.places _ hmem₁
    · exact hmem₂ x hx

end

end TypeExpr

/-! ### Loading -/

namespace Schema

open TypeGraph

/-- Whether a type is a class or an interface that the program declares. -/
def Declares (g : TypeGraph) (id : TypeId) : Prop :=
  id ∈ g.places ∧ ∃ body, g.classBody? id = some body ∧ body.isLibrary = false

/-- What a step of loading keeps. -/
structure Keeps (g g' : TypeGraph) : Prop where
  built : g.Built → g'.Built
  plain : g.LibraryPlain → g'.LibraryPlain
  grows : g.Grows g'

variable {g g' g'' : TypeGraph} {id : TypeId} {decl : ClassDecl}

theorem Keeps.refl (g : TypeGraph) : Keeps g g := ⟨id, id, .refl g⟩

theorem Keeps.trans (h : Keeps g g') (h' : Keeps g' g'') : Keeps g g'' :=
  ⟨fun hg => h'.built (h.built hg), fun hg => h'.plain (h.plain hg), h.grows.trans h'.grows⟩

/-- A class that the program declares stays one. -/
theorem Keeps.declares (h : Keeps g g') (hid : Declares g id) : Declares g' id := by
  obtain ⟨hmem, body, hbody, hlib⟩ := hid
  obtain ⟨body', hbody', hlib'⟩ := h.grows.body id hmem body hbody
  exact ⟨h.grows.places id hmem, body', hbody', hlib'.trans hlib⟩

/-- An error of a declaration is handed on. -/
theorem declaring_eq_ok {α : Type} {r : Except DeclarationError α} {a : α} :
    declaring r = .ok a ↔ r = .ok a := by
  cases r <;> simp [declaring, Except.mapError]

/-- A type expression is resolved to a type of the graph that it grows to. -/
theorem resolve_eq_ok (hg : g.Built) {context source : String}
    (h : resolve g context source = .ok (id, g')) : Keeps g g' ∧ id ∈ g'.places := by
  have hyields : ∃ e : TypeExpr, e.resolve.Yields g id g' := by
    unfold Schema.resolve TypeExpr.resolveIn at h
    -- The expression has been parsed.
    cases hparse : TypeExpr.parse source with
    | error e =>
      rw [hparse] at h
      cases h
    | ok e =>
      rw [hparse] at h
      refine ⟨e, ?_⟩
      dsimp only at h
      unfold Resolving.Yields
      split at h
      case h_1 heq =>
        rw [Except.ok.injEq, Prod.mk.injEq] at h
        rw [heq, h.1, h.2]
      case h_2 => cases h
  obtain ⟨e, he⟩ := hyields
  -- Resolving only extends the graph.
  obtain ⟨hext, hmem⟩ := TypeExpr.resolve_yields hg.consistent.firstDeclared_le he
  exact ⟨⟨hext.built, hext.libraryPlain, hext.grows⟩, hmem⟩

/-- Putting another body into a class of the program. -/
private theorem keeps_setBody (hid : Declares g id) {old body : ClassBody}
    (hold : g.classBody? id = some old) (hlib : body.isLibrary = old.isLibrary)
    (hbuilt : g.Built → (g.setBody id body).Built) : Keeps g (g.setBody id body) := by
  obtain ⟨_, b, hb, hfalse⟩ := hid
  rw [hold, Option.some.injEq] at hb
  exact ⟨hbuilt, fun hg => hg.setBody (by rw [hlib, hb, hfalse]), .setBody hold hlib⟩

/-- Putting a superclass above a class keeps everything else. -/
private theorem keeps_setSuperclass (hid : Declares g id) {above : TypeId}
    (habove : above ∈ g.places) (h : g.setSuperclass id above = .ok g') : Keeps g g' := by
  have hbuilt : g.Built → g'.Built := fun hg => .setSuperclass hg habove h
  obtain ⟨body, hbody, -, -, rfl⟩ := setSuperclass_eq_ok.1 h
  exact keeps_setBody hid hbody rfl hbuilt

/-- Putting an interface above a class keeps everything else. -/
private theorem keeps_addInterface (hid : Declares g id) {above : TypeId}
    (habove : above ∈ g.places) (h : g.addInterface id above = .ok g') : Keeps g g' := by
  have hbuilt : g.Built → g'.Built := fun hg => .addInterface hg habove h
  obtain ⟨body, hbody, -, rfl⟩ := addInterface_eq_ok.1 h
  exact keeps_setBody hid hbody rfl hbuilt

/-- Adding a field to a class keeps everything else. -/
private theorem keeps_addField (hid : Declares g id) {field : Field}
    (h : g.addField id field = .ok g') : Keeps g g' := by
  have hbuilt : g.Built → g'.Built := fun hg => .addField hg h
  obtain ⟨body, hbody, rfl⟩ := addField_eq_ok.1 h
  exact keeps_setBody hid hbody rfl hbuilt

/-! ### Linking -/

/-- Linking the superclass of a class keeps everything else. -/
private theorem keeps_linkSuperclass (hg : g.Built) (hid : Declares g id)
    (h : linkSuperclass g id decl = .ok g') : Keeps g g' := by
  unfold linkSuperclass at h
  split at h
  · cases h
    exact .refl g
  · obtain ⟨⟨above, g₁⟩, habove, h⟩ := Except.bind_eq_ok.1 h
    obtain ⟨hkeeps, hmem⟩ := resolve_eq_ok hg habove
    exact hkeeps.trans (keeps_setSuperclass (hkeeps.declares hid) hmem (declaring_eq_ok.1 h))

/-- Linking an interface of a class keeps everything else. -/
private theorem keeps_linkInterface (hg : g.Built) (hid : Declares g id) {source : String}
    (h : linkInterface id decl g source = .ok g') : Keeps g g' := by
  unfold linkInterface at h
  obtain ⟨⟨above, g₁⟩, habove, h⟩ := Except.bind_eq_ok.1 h
  obtain ⟨hkeeps, hmem⟩ := resolve_eq_ok hg habove
  exact hkeeps.trans (keeps_addInterface (hkeeps.declares hid) hmem (declaring_eq_ok.1 h))

/-- Linking a field of a class keeps everything else. -/
private theorem keeps_linkField (hg : g.Built) (hid : Declares g id) {field : FieldDecl}
    (h : linkField id decl g field = .ok g') : Keeps g g' := by
  unfold linkField at h
  obtain ⟨⟨type, g₁⟩, htype, h⟩ := Except.bind_eq_ok.1 h
  obtain ⟨hkeeps, _⟩ := resolve_eq_ok hg htype
  exact hkeeps.trans (keeps_addField (hkeeps.declares hid) (declaring_eq_ok.1 h))

/-- What every step keeps is kept by all of them together. -/
private theorem keeps_foldlM {α : Type} {step : TypeGraph → α → Except SchemaError TypeGraph}
    (hstep : ∀ g g' a, g.Built → Declares g id → step g a = .ok g' → Keeps g g') {as : List α}
    (hg : g.Built) (hid : Declares g id) (h : as.foldlM step g = .ok g') : Keeps g g' := by
  induction as generalizing g with
  | nil =>
    cases h
    exact .refl _
  | cons a as ih =>
    rw [List.foldlM_cons] at h
    obtain ⟨g₁, hfirst, h⟩ := Except.bind_eq_ok.1 h
    have hkeeps := hstep g g₁ a hg hid hfirst
    exact hkeeps.trans (ih (hkeeps.built hg) (hkeeps.declares hid) h)

/-- Linking a class keeps everything else. -/
private theorem keeps_linkClass (hg : g.Built) (hid : Declares g id)
    (h : linkClass g id decl = .ok g') : Keeps g g' := by
  unfold linkClass at h
  obtain ⟨g₁, hsuper, h⟩ := Except.bind_eq_ok.1 h
  obtain ⟨g₂, hinterfaces, h⟩ := Except.bind_eq_ok.1 h
  -- The superclass, the interfaces and the fields are linked one after another.
  have h₁ := keeps_linkSuperclass hg hid hsuper
  have h₂ := keeps_foldlM (fun _ _ _ hg hid => keeps_linkInterface hg hid) (h₁.built hg)
    (h₁.declares hid) hinterfaces
  have h₁₂ := h₁.trans h₂
  exact h₁₂.trans (keeps_foldlM (fun _ _ _ hg hid => keeps_linkField hg hid) (h₁₂.built hg)
    (h₁₂.declares hid) h)

/-- The classes that are linked are classes that the program declares. -/
private theorem keeps_linkTypes {pairs : List (TypeDecl × TypeId)} (hg : g.Built)
    (hpairs : ∀ p ∈ pairs, p.1.classDecl?.isSome → Declares g p.2)
    (h : linkTypes g pairs = .ok g') : Keeps g g' := by
  induction pairs generalizing g with
  | nil =>
    cases h
    exact .refl _
  | cons p pairs ih =>
    obtain ⟨decl, id⟩ := p
    unfold linkTypes at h
    have hrest : ∀ p ∈ pairs, p.1.classDecl?.isSome → Declares g p.2 := fun p hp =>
      hpairs p (List.mem_cons_of_mem _ hp)
    split at h
    -- A class is linked, and the others are still declared then.
    case h_1 cls hcls =>
      obtain ⟨g₁, hlink, h⟩ := Except.bind_eq_ok.1 h
      have hid : Declares g id := hpairs _ List.mem_cons_self (by rw [hcls]; rfl)
      have hkeeps := keeps_linkClass hg hid hlink
      exact hkeeps.trans
        (ih (hkeeps.built hg) (fun p hp hsome => hkeeps.declares (hrest p hp hsome)) h)
    case h_2 => exact ih hg hrest h

/-! ### Declaring -/

/-- A type that is declared is put into the graph, and a class is one that the program declares. -/
private theorem keeps_declare {t : TypeDescriptor} (parts : t.kind.parts = [])
    (hplain : ∀ body, t.kind.classBody? = some body →
      body.superclass = none ∧ body.interfaces = [] ∧ body.fields = [])
    (hbuilt : g.Built → g'.Built) (h : g.declare t parts = .ok (id, g')) :
    Keeps g g' ∧ ∀ body, t.kind.classBody? = some body → body.isLibrary = false →
      Declares g' id := by
  obtain ⟨-, rfl, rfl⟩ := declare_eq_ok.1 h
  refine ⟨⟨hbuilt, fun hg => hg.push hplain, .push⟩, fun body hbody hlib => ?_⟩
  refine ⟨mem_places_push.2 (Or.inr rfl), body, ?_, hlib⟩
  rw [classBody?, kind, descriptor_push_next, hbody]

/-- Declaring a type; a class that the program declares is one of the graph then. -/
private theorem keeps_declareType {decl : TypeDecl} (h : declareType g decl = .ok (id, g')) :
    Keeps g g' ∧ (decl.classDecl?.isSome → Declares g' id) := by
  -- Classes and interfaces start without anything in their bodies.
  cases decl with
  | classType decl =>
    obtain ⟨hkeeps, hnew⟩ := keeps_declare rfl (by rintro _ ⟨⟩; exact ⟨rfl, rfl, rfl⟩)
      (fun hg => .declareClass hg h) h
    exact ⟨hkeeps, fun _ => hnew _ rfl rfl⟩
  | interfaceType decl =>
    obtain ⟨hkeeps, hnew⟩ := keeps_declare rfl (by rintro _ ⟨⟩; exact ⟨rfl, rfl, rfl⟩)
      (fun hg => .declareInterface hg h) h
    exact ⟨hkeeps, fun _ => hnew _ rfl rfl⟩
  -- Enums and types of a library are never linked.
  | enumType decl =>
    obtain ⟨hkeeps, _⟩ := keeps_declare rfl (by rintro _ ⟨⟩) (fun hg => .declareEnum hg h) h
    exact ⟨hkeeps, fun hsome => nomatch hsome⟩
  | libraryType name =>
    obtain ⟨hkeeps, _⟩ := keeps_declare rfl (by rintro _ ⟨⟩; exact ⟨rfl, rfl, rfl⟩)
      (fun hg => .declareLibraryClass hg h) h
    exact ⟨hkeeps, fun hsome => nomatch hsome⟩

/-- Declaring types keeps everything, and each class among them is one of the graph then. -/
theorem keeps_declareTypes {decls : List TypeDecl} {ids : List TypeId}
    (h : declareTypes g decls = .ok (ids, g')) :
    Keeps g g' ∧ ∀ p ∈ decls.zip ids, p.1.classDecl?.isSome → Declares g' p.2 := by
  induction decls generalizing g ids with
  | nil =>
    cases h
    refine ⟨.refl _, fun p hp => ?_⟩
    rw [List.zip_nil_left] at hp
    cases hp
  | cons decl rest ih =>
    unfold declareTypes at h
    obtain ⟨⟨id, g₁⟩, hfirst, h⟩ := Except.bind_eq_ok.1 h
    obtain ⟨⟨ids', g₂⟩, hrest, h⟩ := Except.bind_eq_ok.1 h
    cases h
    -- The first type is declared, and then the others.
    obtain ⟨hkeeps, hnew⟩ := keeps_declareType hfirst
    obtain ⟨hkeeps', hnew'⟩ := ih hrest
    refine ⟨hkeeps.trans hkeeps', fun p hp hsome => ?_⟩
    rw [List.zip_cons_cons] at hp
    rcases List.mem_cons.1 hp with rfl | hp
    · exact hkeeps'.declares (hnew hsome)
    · exact hnew' p hp hsome

/-! ### Schemas -/

/-- Resolving the roots keeps everything. -/
private theorem keeps_resolveRoots (hg : g.Built) {sources : List String} {roots : List TypeId}
    (h : resolveRoots g sources = .ok (roots, g')) : Keeps g g' := by
  induction sources generalizing g roots with
  | nil =>
    cases h
    exact .refl _
  | cons source rest ih =>
    unfold resolveRoots at h
    obtain ⟨⟨id, g₁⟩, hfirst, h⟩ := Except.bind_eq_ok.1 h
    obtain ⟨⟨ids, g₂⟩, hrest, h⟩ := Except.bind_eq_ok.1 h
    cases h
    obtain ⟨hkeeps, _⟩ := resolve_eq_ok hg hfirst
    exact hkeeps.trans (ih (hkeeps.built hg) hrest)

/-- The graph of a schema that loads is one that the first graph grows to. -/
theorem keeps_load {s : Schema} {loaded : LoadedSchema} (h : s.load = .ok loaded) :
    Keeps .prelude loaded.graph := by
  unfold load at h
  obtain ⟨⟨ids, g₁⟩, hdeclare, h⟩ := Except.bind_eq_ok.1 h
  obtain ⟨g₂, hlink, h⟩ := Except.bind_eq_ok.1 h
  obtain ⟨⟨roots, g₃⟩, hroots, h⟩ := Except.bind_eq_ok.1 h
  cases h
  -- Declaring, linking and resolving the roots each keep everything.
  obtain ⟨h₁, hpairs⟩ := keeps_declareTypes (declaring_eq_ok.1 hdeclare)
  have hbuilt := h₁.built .prelude
  have h₁₂ := h₁.trans (keeps_linkTypes hbuilt hpairs hlink)
  exact h₁₂.trans (keeps_resolveRoots (h₁₂.built .prelude) hroots)

/-- The classes that every graph starts with are those of a library. -/
private theorem prelude_standard : ∀ i < 28, 17 ≤ i →
    (prelude.classBody? ⟨i⟩).any (·.isLibrary) = true := by
  decide

/-- The graph of a schema that loads can be built. -/
theorem built_of_load {s : Schema} {loaded : LoadedSchema} (h : s.load = .ok loaded) :
    loaded.graph.Built :=
  (keeps_load h).built .prelude

/-- The classes of a library stay plain when a schema is loaded. -/
theorem libraryPlain_of_load {s : Schema} {loaded : LoadedSchema} (h : s.load = .ok loaded) :
    loaded.graph.LibraryPlain :=
  (keeps_load h).plain libraryPlain_prelude

/-- The classes that every graph starts with stay classes of a library. -/
theorem standard_of_load {s : Schema} {loaded : LoadedSchema} (h : s.load = .ok loaded)
    (hlow : TypeId.string.index ≤ id.index) (hhigh : id.index < TypeId.firstReserved) :
    ∃ body, loaded.graph.classBody? id = some body ∧ body.isLibrary := by
  have hstart := prelude_standard id.index hhigh hlow
  rw [Option.any_eq_true] at hstart
  obtain ⟨b, hb, hlib⟩ := hstart
  have hsize : prelude.size = 32 := by decide
  -- The class has its place from the start.
  have hmem : id ∈ prelude.places := mem_places.2 (by
    rw [hsize]
    have : id.index < 28 := hhigh
    omega)
  obtain ⟨body, hbody, hlib'⟩ := (keeps_load h).grows.body id hmem b hb
  exact ⟨body, hbody, by rw [hlib', hlib]⟩

/-- A schema has loaded to a graph when the list of the graph's types and the roots are as
    given. The graph holds its types in an array, and two arrays are compared through their
    lists. -/
theorem load_eq_of_types {s : Schema} {g : TypeGraph} {roots : List TypeId}
    (h : s.load.map (fun loaded => (loaded.graph.types.toList, loaded.roots)) =
      .ok (g.types.toList, roots)) : s.load = .ok ⟨g, roots⟩ := by
  obtain ⟨⟨⟨types⟩, roots'⟩, hload, heq⟩ := Except.map_eq_ok.1 h
  obtain ⟨htypes, rfl⟩ := Prod.mk.inj heq
  obtain rfl := Array.toList_inj.1 htypes
  exact hload

/-- The schema of pets loads. -/
theorem load_petSchema :
    Example.petSchema.load = .ok ⟨Example.petGraph, [⟨35⟩]⟩ :=
  load_eq_of_types (by decide +kernel)

/-- The schema of a network loads. -/
theorem load_networkSchema :
    Example.networkSchema.load = .ok ⟨Example.networkGraph, [⟨36⟩]⟩ :=
  load_eq_of_types (by decide +kernel)

end Schema

end GraphCodec
