import GraphCodec.Proofs.Types.Builder
import GraphCodec.Proofs.Types.Spelling

/-!
# Graphs with names that are paths

Types can be declared under any names, and structural types can be made of places that are kept
free, which have no name.  The operations of `Operation.IsNamed` do neither.  What an operation does
to a graph is one of few things (`Operation.change_after`), and each of them keeps what holds of the
graphs that such operations lead to (`TypeGraph.Named.wellNamed`): types that are made of no others
have paths as their names, and the others are made of types that have names.  Resolving expressions
does no more than such operations do (`TypeGraph.Named.of_resolveIn`).
-/

namespace GraphCodec

open TypeExpr (IsPath)

/-! ### What operations do -/

namespace Operation

/-- The name that an operation declares. -/
def declaredName? : Operation → Option String
  | declareClass name _ | declareInterface name | declareLibraryClass name
  | declareEnum name _ => some name
  | _ => none

/-- The types that an operation makes a structural type of. -/
def parts : Operation → List TypeId
  | array component => [component]
  | parameterized raw arguments => raw :: arguments
  | _ => []

/-- Whether an operation declares a path, if anything, and makes nothing of a place that is kept
free. -/
structure IsNamed (op : Operation) : Prop where
  path : ∀ name ∈ op.declaredName?, IsPath name.toList
  parts : ∀ id ∈ op.parts, id.isReserved = false

instance (op : Operation) : Decidable op.IsNamed :=
  decidable_of_iff ((∀ name ∈ op.declaredName?, IsPath name.toList) ∧
    ∀ id ∈ op.parts, id.isReserved = false) ⟨fun h => ⟨h.1, h.2⟩, fun h => ⟨h.path, h.parts⟩⟩

/-- An operation that declares no name is named if it uses none of the places without one. -/
private theorem IsNamed.of_declaredName? {op : Operation} (hnone : op.declaredName? = none)
    (hparts : ∀ id ∈ op.parts, id.isReserved = false) : op.IsNamed where
  path := by
    rw [hnone]
    exact fun name hname => absurd hname (Option.not_mem_none name)
  parts := hparts

/-- The graph after an operation.  An operation that is refused changes nothing. -/
def after (g : TypeGraph) (op : Operation) : TypeGraph :=
  match op.apply g with
  | .ok (_, g') => g'
  | .error _ => g

/-- What an operation does to a graph: nothing, or it declares a type that is made of no others, or
changes what a class says about itself, or shares a structural type. -/
inductive Change (op : Operation) (g : TypeGraph) : TypeGraph → Prop where
  | nothing : Change op g g
  | declared {t : TypeDescriptor} (hparts : t.kind.parts = []) : op.declaredName? = some t.name →
    Change op g (g.push t (by simp [hparts]))
  | body {id : TypeId} {old new : ClassBody} : g.classBody? id = some old → new.arity = old.arity →
    Change op g (g.setBody id new)
  | array {component : TypeId} : op.parts = [component] → Change op g (g.array component).2
  | applied {raw : TypeId} {arguments : List TypeId} : op.parts = raw :: arguments →
    arguments ≠ [] → Applies ((g.classBody? raw).map (·.arity)) arguments.length →
    Change op g (g.intern (g.application raw arguments)).2

/-- What holds of the graph and of each outcome holds after the operation, which changes nothing
where it is refused. -/
private theorem after_induction {P : TypeGraph → Prop} {op : Operation} {g : TypeGraph} (hg : P g)
    (h : ∀ found g', op.apply g = .ok (found, g') → P g') : P (op.after g) := by
  unfold after
  split
  case h_1 found g' happly => exact h found g' happly
  case h_2 => exact hg

/-- A declaration puts a type of the declared name into the graph. -/
private theorem change_of_declare {op : Operation} {g g' : TypeGraph} {t : TypeDescriptor}
    {hparts : t.kind.parts = []} {found : Option TypeId} (hname : op.declaredName? = some t.name)
    (h : (g.declare t hparts).map (fun (id, g') => (some id, g')) = .ok (found, g')) :
    op.Change g g' := by
  obtain ⟨⟨id, g'⟩, hdeclare, heq⟩ := Except.map_eq_ok.1 h
  obtain ⟨-, -, rfl⟩ := TypeGraph.declare_eq_ok.1 hdeclare
  cases heq
  exact .declared hparts hname

/-- An operation changes a graph in one of the ways of `Change`, or not at all. -/
theorem change_after (op : Operation) (g : TypeGraph) : op.Change g (op.after g) := by
  refine after_induction .nothing fun found g' h => ?_
  -- A declaration, a change of a body, or a structural type.
  cases op with
  | declareClass name isAbstract => exact change_of_declare rfl h
  | declareInterface name => exact change_of_declare rfl h
  | declareLibraryClass name => exact change_of_declare rfl h
  | declareEnum name variants => exact change_of_declare rfl h
  | setSuperclass id above =>
    obtain ⟨g', hset, heq⟩ := Except.map_eq_ok.1 h
    obtain ⟨body, hbody, -, -, rfl⟩ := TypeGraph.setSuperclass_eq_ok.1 hset
    cases heq
    exact .body hbody rfl
  | addInterface id above =>
    obtain ⟨g', hadd, heq⟩ := Except.map_eq_ok.1 h
    obtain ⟨body, hbody, -, rfl⟩ := TypeGraph.addInterface_eq_ok.1 hadd
    cases heq
    exact .body hbody rfl
  | setAbstract id isAbstract =>
    obtain ⟨g', hset, heq⟩ := Except.map_eq_ok.1 h
    obtain ⟨body, hbody, rfl⟩ := TypeGraph.setAbstract_eq_ok.1 hset
    cases heq
    exact .body hbody rfl
  | addField id field =>
    obtain ⟨g', hadd, heq⟩ := Except.map_eq_ok.1 h
    obtain ⟨body, hbody, rfl⟩ := TypeGraph.addField_eq_ok.1 hadd
    cases heq
    exact .body hbody rfl
  -- An array is shared or put in.
  | array component =>
    cases h
    exact .array rfl
  | parameterized raw arguments =>
    obtain ⟨⟨id, g'⟩, happlied, heq⟩ := Except.map_eq_ok.1 h
    cases heq
    -- Applied to nothing, a class is itself.
    rcases TypeGraph.parameterized_eq_ok.1 happlied with
      ⟨-, -, rfl⟩ | ⟨hne, body, hbody, harity, hintern⟩
    · exact .nothing
    · rw [(Prod.mk.inj hintern).2]
      refine .applied rfl hne (Or.inr ?_)
      rw [hbody]
      exact decide_eq_true harity

end Operation

namespace TypeGraph

variable {g g' : TypeGraph} {id : TypeId}

/-! ### Graphs with names that are paths -/

/-- What holds of graphs that are built by named operations. -/
structure WellNamed (g : TypeGraph) : Prop where
  /-- The types that every graph starts with keep their names. -/
  standard : ∀ id : TypeId, id.isPrelude → g.name id = prelude.name id ∧ (g.kind id).parts = []
  /-- The name of a type that is made of no others is a path. -/
  path : ∀ id ∈ g.places, id.isReserved = false → (g.kind id).parts = [] →
    IsPath (g.name id).toList
  /-- No type is made of a place that is kept free. -/
  parts : ∀ id, ∀ p ∈ (g.kind id).parts, p.isReserved = false
  /-- A class is applied to as many arguments as it takes, and to one at least. -/
  applied : ∀ id raw arguments, g.kind id = .parameterized raw arguments →
    arguments ≠ [] ∧ Applies ((g.classBody? raw).map (·.arity)) arguments.length

/-- The types of the prelude have paths as their names, except at the places that are kept free. -/
private theorem prelude_paths : ∀ i < 32, (⟨i⟩ : TypeId).isReserved = false →
    IsPath (prelude.name ⟨i⟩).toList := by
  decide +kernel

/-- The graph at the start is well named. -/
private theorem wellNamed_prelude : prelude.WellNamed where
  standard := fun id _ => ⟨rfl, parts_prelude id⟩
  path := fun id hid hres _ => prelude_paths id.index (mem_places.1 hid) hres
  -- None of its types is made of others.
  parts := by
    intro id p hp
    rw [parts_prelude] at hp
    cases hp
  applied := by
    intro id raw arguments hkind
    have hparts := parts_prelude id
    rw [hkind] at hparts
    cases hparts

theorem Built.mem_of_isPrelude (hg : g.Built) (h : id.isPrelude) : id ∈ g.places :=
  mem_places.2 (Nat.lt_of_lt_of_le (of_decide_eq_true h) hg.consistent.firstDeclared_le)

/-- Putting a type at the next place. -/
theorem WellNamed.push (hg : g.WellNamed) (hbuilt : g.Built) {t : TypeDescriptor}
    (parts : ∀ p ∈ t.kind.parts, p.index < g.size)
    (hpath : t.kind.parts = [] → IsPath t.name.toList)
    (hparts : ∀ p ∈ t.kind.parts, p.isReserved = false)
    (happlied : ∀ raw arguments, t.kind = .parameterized raw arguments →
      arguments ≠ [] ∧ Applies ((g.classBody? raw).map (·.arity)) arguments.length) :
    (g.push t parts).WellNamed where
  standard := by
    intro id hid
    have hmem := hbuilt.mem_of_isPrelude hid
    -- The prelude stands in its places as before.
    rw [name_push_of_mem hmem, kind_push_of_mem hmem]
    exact hg.standard id hid
  path := by
    intro id hid hres hnil
    -- An old type keeps its name and its parts, and the new one has a path as its name.
    rcases mem_places_push.1 hid with hid | rfl
    · rw [kind_push_of_mem hid] at hnil
      rw [name_push_of_mem hid]
      exact hg.path id hid hres hnil
    · rw [kind_push_next] at hnil
      rw [name, descriptor_push_next]
      exact hpath hnil
  parts := by
    intro id p hp
    -- An old type keeps its parts, and those of the new one have names.
    by_cases hid : id ∈ g.places
    · rw [kind_push_of_mem hid] at hp
      exact hg.parts id p hp
    · by_cases hnext : id = g.next
      · rw [hnext, kind_push_next] at hp
        exact hparts p hp
      · rw [kind_of_not_mem fun h => (mem_places_push.1 h).elim hid hnext] at hp
        cases hp
  applied := by
    intro id raw arguments hkind
    -- In either case the raw class was there before, and takes as many arguments as then.
    by_cases hid : id ∈ g.places
    · rw [kind_push_of_mem hid] at hkind
      have hraw : raw ∈ g.places :=
        mem_places_of_mem_parts hid (by rw [hkind]; exact List.mem_cons_self)
      rw [classBody?_push_of_mem hraw]
      exact hg.applied id raw arguments hkind
    · by_cases hnext : id = g.next
      · rw [hnext, kind_push_next] at hkind
        have hraw : raw ∈ g.places :=
          mem_places.2 (parts raw (by rw [hkind]; exact List.mem_cons_self))
        rw [classBody?_push_of_mem hraw]
        exact happlied raw arguments hkind
      · rw [kind_of_not_mem fun h => (mem_places_push.1 h).elim hid hnext] at hkind
        cases hkind

/-- A new body with as many parameters as before leaves the arities of all classes as they are. -/
private theorem arity_setBody {old new : ClassBody} (hold : g.classBody? id = some old)
    (harity : new.arity = old.arity) (raw : TypeId) :
    ((g.setBody id new).classBody? raw).map (·.arity) = (g.classBody? raw).map (·.arity) := by
  unfold classBody? at hold ⊢
  by_cases hmem : id ∈ g.places
  -- Only the class that is changed has another body.
  · by_cases hraw : raw = id
    · rw [hraw, kind_setBody_self hmem, TypeKind.classBody?_withBody, hold]
      exact congrArg some harity
    · rw [kind_setBody_of_ne hraw]
  · rw [setBody_of_not_mem hmem]

/-- Changing what a class says about itself, but not the number of its parameters. -/
private theorem WellNamed.setBody (hg : g.WellNamed) {old new : ClassBody}
    (hold : g.classBody? id = some old) (harity : new.arity = old.arity) :
    (g.setBody id new).WellNamed where
  standard := by
    intro x hx
    -- A new body changes neither names nor parts.
    rw [name_setBody, parts_setBody]
    exact hg.standard x hx
  path := by
    intro x hx hres hnil
    rw [parts_setBody] at hnil
    rw [name_setBody]
    exact hg.path x (mem_places_setBody.1 hx) hres hnil
  parts := by
    intro x p hp
    rw [parts_setBody] at hp
    exact hg.parts x p hp
  applied := by
    intro x raw arguments hkind
    -- A structural type has no body, so it is not the type that is changed.
    have hparts : ((g.setBody id new).kind x).parts = (g.kind x).parts := parts_setBody x
    rw [hkind] at hparts
    have hne : (g.kind x).parts ≠ [] := hparts ▸ List.cons_ne_nil _ _
    rw [kind_setBody_of_parts hne] at hkind
    rw [arity_setBody hold harity]
    exact hg.applied x raw arguments hkind

/-- Sharing a structural type. -/
private theorem WellNamed.intern (hg : g.WellNamed) (hbuilt : g.Built) {t : TypeDescriptor}
    (hne : t.kind.parts ≠ []) (hparts : ∀ p ∈ t.kind.parts, p.isReserved = false)
    (happlied : ∀ raw arguments, t.kind = .parameterized raw arguments →
      arguments ≠ [] ∧ Applies ((g.classBody? raw).map (·.arity)) arguments.length) :
    (g.intern t).2.WellNamed :=
  intern_induction hg fun parts _ =>
    hg.push hbuilt parts (fun hnil => absurd hnil hne) hparts happlied

/-- The graphs that named operations on places of the graph lead to, refused ones included. -/
inductive Named : TypeGraph → Prop where
  | prelude : Named .prelude
  | step {g : TypeGraph} (op : Operation) : Named g → (∀ id ∈ op.places, id ∈ g.places) →
    op.IsNamed → Named (op.after g)

/-- Named operations lead to graphs that can be built. -/
theorem Named.built (h : g.Named) : g.Built := by
  induction h with
  | prelude => exact .prelude
  | step op _ hplaces _ ih =>
    exact Operation.after_induction ih fun found g' happly =>
      Operation.built_of_apply ih hplaces happly

/-- Named operations lead to well named graphs. -/
theorem Named.wellNamed (h : g.Named) : g.WellNamed := by
  induction h with
  | prelude => exact wellNamed_prelude
  | @step g op h _ hop ih =>
    have hbuilt := h.built
    have hchange := op.change_after g
    generalize op.after g = g' at hchange ⊢
    -- The operation has done nothing, declared a type, changed a body, or formed a structural type.
    cases hchange with
    | nothing => exact ih
    | declared hparts hname =>
      refine ih.push hbuilt _ (fun _ => hop.path _ hname) (fun p hp => ?_)
        fun raw arguments hk => ?_
      -- A declared type is made of no others.
      · rw [hparts] at hp
        cases hp
      · rw [hk] at hparts
        cases hparts
    | body hold harity => exact ih.setBody hold harity
    | array hop' =>
      refine ih.intern hbuilt (List.cons_ne_nil _ _) (fun p hp => ?_) nofun
      -- The component has a name, because the operation is named.
      exact hop.parts p (hop' ▸ hp)
    | applied hop' hne happlies =>
      refine ih.intern hbuilt (List.cons_ne_nil _ _) (fun p hp => ?_) fun raw arguments hk => ?_
      -- So have the raw class and its arguments.
      · exact hop.parts p (hop' ▸ hp)
      · cases hk
        exact ⟨hne, happlies⟩

/-- The name of a primitive type is its keyword. -/
theorem WellNamed.keyword (hg : g.WellNamed) (p : Primitive) :
    g.name p.id = p.keyword ∧ (g.kind p.id).parts = [] ∧ p.id.isPrelude ∧
      p.id.isReserved = false := by
  have hprelude : p.id.isPrelude ∧ p.id.isReserved = false ∧
      prelude.name p.id = p.keyword := by
    cases p with
    -- Each keyword is the name at the place of its type.
    | void => decide
    | scalar s => cases s <;> decide
  obtain ⟨hname, hparts⟩ := hg.standard p.id hprelude.1
  exact ⟨hname.trans hprelude.2.2, hparts, hprelude.1, hprelude.2.1⟩

/-! ### Resolving -/

/-- Whether a type has a place in a graph, and not one that is kept free. -/
structure Offers (g : TypeGraph) (id : TypeId) : Prop where
  mem : id ∈ g.places
  notReserved : id.isReserved = false

/-- A structural type stands in no place without a name. -/
private theorem WellNamed.isReserved_of_parts (hg : g.WellNamed) (h : (g.kind id).parts ≠ []) :
    id.isReserved = false :=
  TypeId.isReserved_of_isPrelude (Bool.eq_false_iff.2 fun hprelude => h (hg.standard id hprelude).2)

/-- A path stands for the primitive type with that keyword, for the type with that name, or for the
type of the package `std` with that simple name. -/
theorem typeNamed?_eq_some {path : String} : g.typeNamed? path = some id ↔
    (∃ p, Primitive.ofKeyword? path = some p ∧ p.id = id) ∨
    Primitive.ofKeyword? path = none ∧ (g.lookup? path = some id ∨
      g.lookup? path = none ∧ path.contains '.' = false ∧
        g.lookup? ("std." ++ path) = some id) := by
  unfold typeNamed?
  -- As the definition looks it up: a keyword first, then the name, then the name in the package
  -- `std`.
  cases Primitive.ofKeyword? path with
  | some p => simp
  | none =>
    cases g.lookup? path with
    | some found => simp
    | none => simp

/-- A name stands for a type that the graph offers. -/
private theorem Named.offers_of_typeNamed? (hg : g.Named) {path : String}
    (h : g.typeNamed? path = some id) : g.Offers id := by
  refine ⟨typeNamed?_mem hg.built.consistent.firstDeclared_le h, ?_⟩
  have hlookup : ∀ name, g.lookup? name = some id → id.isReserved = false := by
    intro name hname
    have hfound := List.find?_some hname
    simp only [Bool.and_eq_true, Bool.not_eq_true'] at hfound
    exact hfound.1
  -- A keyword stands for a type of the prelude, and a name is looked up among those that are not
  -- reserved.
  rcases typeNamed?_eq_some.1 h with ⟨p, -, rfl⟩ | ⟨-, hname | ⟨-, -, hname⟩⟩
  · exact (hg.wellNamed.keyword p).2.2.2
  · exact hlookup _ hname
  · exact hlookup _ hname

/-- Forming an array is a named operation, and the array can be used by others. -/
private theorem Named.array (hg : g.Named) (h : g.Offers id) :
    (g.array id).2.Named ∧ (g.array id).2.Offers (g.array id).1 := by
  have hnamed : (g.array id).2.Named := hg.step (.array id)
    (fun x hx => List.mem_singleton.1 hx ▸ h.mem)
    (.of_declaredName? rfl fun x hx => List.mem_singleton.1 hx ▸ h.notReserved)
  have hputs := puts_array h.mem
  -- The array has a part, so its place is none of those without a name.
  obtain ⟨component, hkind, -⟩ := kind_of_term_eq_array hputs.term
  exact ⟨hnamed, hputs.mem, hnamed.wellNamed.isReserved_of_parts (by simp [hkind, TypeKind.parts])⟩

/-- Applying a class to arguments is a named operation, and the result can be used by others. -/
private theorem Named.parameterized (hg : g.Named) {raw : TypeId} {arguments : List TypeId}
    (hraw : g.Offers raw) (harguments : ∀ a ∈ arguments, g.Offers a)
    (h : g.parameterized raw arguments = .ok (id, g')) : g'.Named ∧ g'.Offers id := by
  have hall : ∀ x ∈ raw :: arguments, g.Offers x := List.forall_mem_cons.2 ⟨hraw, harguments⟩
  -- The graph is the one after the operation.
  have hafter : (Operation.parameterized raw arguments).after g = g' := by
    rw [Operation.after, Operation.apply, h]
    rfl
  have hnamed : g'.Named := hafter ▸ hg.step (.parameterized raw arguments)
    (fun x hx => (hall x hx).mem) (.of_declaredName? rfl fun x hx => (hall x hx).notReserved)
  refine ⟨hnamed, ?_⟩
  obtain ⟨hputs, -⟩ := puts_parameterized hraw.mem (fun a ha => (harguments a ha).mem) h
  -- Without arguments the class itself is the result, and otherwise the result has parts.
  rcases parameterized_eq_ok.1 h with ⟨-, rfl, rfl⟩ | ⟨hne, -⟩
  · exact hraw
  · have hterm := hputs.term
    rw [TypeTerm.apply, List.isEmpty_map, if_neg (by rwa [List.isEmpty_iff])] at hterm
    obtain ⟨raw', arguments', hkind, -⟩ := kind_of_term_eq_applied hterm
    exact ⟨hputs.mem, hnamed.wellNamed.isReserved_of_parts (by simp [hkind, TypeKind.parts])⟩

end TypeGraph

namespace Resolving

open TypeGraph

variable {α β : Type} {g : TypeGraph}

/-- A step after another one goes on in the graph that this one left, if it was not refused. -/
private theorem run_bind (x : Resolving α) (f : α → Resolving β) (g : TypeGraph) :
    ((x >>= f).run g : Except TypeExpr.Error β × TypeGraph) =
      match (x.run g : Except TypeExpr.Error α × TypeGraph) with
      | (.ok a, g₁) => (f a).run g₁
      | (.error e, g₁) => (.error e, g₁) := by
  show (match (x.run g : Except TypeExpr.Error α × TypeGraph) with
    | (a, g₁) => (ExceptT.bindCont f a g₁ : Except TypeExpr.Error β × TypeGraph)) = _
  rcases (x.run g : Except TypeExpr.Error α × TypeGraph) with ⟨e | a, g₁⟩ <;> rfl

/-- Whether a computation leads from a graph to one with names that has all places of the first one,
also where it fails, and yields something of which `P` holds there. -/
structure KeepsNames (x : Resolving α) (g : TypeGraph) (P : TypeGraph → α → Prop) : Prop where
  named : (x.run g : Except TypeExpr.Error α × TypeGraph).2.Named
  places : ∀ id ∈ g.places, id ∈ (x.run g : Except TypeExpr.Error α × TypeGraph).2.places
  yields : ∀ a g', x.Yields g a g' → P g' a

namespace KeepsNames

variable {P : TypeGraph → α → Prop} {Q : TypeGraph → β → Prop}

/-- A value alone changes no graph. -/
theorem pure {a : α} (hg : g.Named) (h : P g a) : KeepsNames (Pure.pure a) g P where
  named := hg
  places := fun _ hid => hid
  yields := by
    intro b g' hb
    obtain ⟨rfl, rfl⟩ := yields_pure.1 hb
    exact h

/-- Two steps keep the names of a graph if each of them does. -/
private theorem bind {x : Resolving α} {f : α → Resolving β} (hx : x.KeepsNames g P)
    (hf : ∀ a g', g'.Named → (∀ id ∈ g.places, id ∈ g'.places) → P g' a → (f a).KeepsNames g' Q) :
    (x >>= f).KeepsNames g Q := by
  obtain ⟨hnamed, hplaces, hyields⟩ := hx
  have hbind := run_bind x f g
  cases hrun : (x.run g : Except TypeExpr.Error α × TypeGraph) with
  | mk r g₁ =>
    rw [hrun] at hnamed hplaces hbind
    cases r with
    -- A refusal of the first step is one of both, with the same graph.
    | error e =>
      refine ⟨hbind ▸ hnamed, hbind ▸ hplaces, fun b g' hb => ?_⟩
      cases hbind.symm.trans hb
    -- Otherwise the second step goes on from the graph that the first one left.
    | ok a =>
      obtain ⟨hnamed', hplaces', hyields'⟩ := hf a g₁ hnamed hplaces (hyields a g₁ hrun)
      exact ⟨hbind ▸ hnamed', hbind ▸ fun id hid => hplaces' id (hplaces id hid),
        fun b g' hb => hyields' b g' (hbind.symm.trans hb)⟩

/-- A refusal changes no graph. -/
private theorem throw {e : TypeExpr.Error} (hg : g.Named) :
    KeepsNames (MonadExcept.throw e : Resolving α) g P where
  named := hg
  places := fun _ hid => hid
  yields := fun _ _ h => absurd h not_yields_throw

/-- Looking at the graph does not change it. -/
theorem get {f : TypeGraph → Resolving α} (h : (f g).KeepsNames g P) :
    (MonadState.get >>= f).KeepsNames g P where
  named := h.named
  places := h.places
  yields := h.yields

/-- A graph with more places may be put in place of another one. -/
private theorem set {s : TypeGraph} {f : PUnit → Resolving α}
    (hplaces : ∀ id ∈ g.places, id ∈ s.places)
    (h : (f ⟨⟩).KeepsNames s P) : (MonadStateOf.set s >>= f).KeepsNames g P where
  named := h.named
  places := fun id hid => h.places id (hplaces id hid)
  yields := h.yields

/-- Resolving a path gives a type that others can use. -/
private theorem named_type (hg : g.Named) (path : String) :
    (Resolving.named path).KeepsNames g Offers := by
  unfold Resolving.named
  refine .get ?_
  split
  case h_1 id hid => exact .pure hg (hg.offers_of_typeNamed? hid)
  case h_2 => exact .throw hg

/-- Resolving an application keeps the names. -/
private theorem parameterized (hg : g.Named) {raw : TypeId} {arguments : List TypeId}
    (hraw : g.Offers raw) (harguments : ∀ a ∈ arguments, g.Offers a) :
    (Resolving.parameterized raw arguments).KeepsNames g Offers := by
  unfold Resolving.parameterized
  refine .get ?_
  split
  case h_1 id g' hid =>
    obtain ⟨hnamed, hoffers⟩ := hg.parameterized hraw harguments hid
    obtain ⟨hputs, -⟩ := puts_parameterized hraw.mem (fun a ha => (harguments a ha).mem) hid
    exact .set hputs.adds.carries.places (.pure hnamed hoffers)
  case h_2 => exact .throw hg

/-- Resolving levels of arrays keeps the names. -/
private theorem arrays {element : TypeId} (hg : g.Named) (h : g.Offers element) (dims : Nat) :
    (Resolving.arrays element dims).KeepsNames g Offers := by
  -- One level after the other, each in the graph with the array below it.
  induction dims generalizing g element with
  | zero => exact .pure hg h
  | succ dims ih =>
    unfold Resolving.arrays
    obtain ⟨hnamed, hoffers⟩ := hg.array h
    exact .get (.set (puts_array h.mem).adds.carries.places (ih hnamed hoffers))

end KeepsNames

end Resolving

namespace TypeExpr

open TypeGraph

mutual

/-- Resolving an expression makes types of types with names only. -/
private theorem keepsNames_resolve {g : TypeGraph} (hg : g.Named) (e : TypeExpr) :
    e.resolve.KeepsNames g Offers := by
  obtain ⟨path, arguments, dims⟩ := e
  unfold resolve
  refine .bind (.named_type hg path) fun raw g₀ hg₀ hplaces₀ hraw => ?_
  refine .bind (keepsNames_resolveAll hg₀ arguments) fun ids g₁ hg₁ hplaces₁ hids => ?_
  have hraw₁ : g₁.Offers raw := ⟨hplaces₁ raw hraw.mem, hraw.notReserved⟩
  exact .bind (.parameterized hg₁ hraw₁ hids) fun id g₂ hg₂ _ hid => .arrays hg₂ hid dims

/-- Resolving expressions one after the other keeps the names, and gives types that others can
use. -/
theorem keepsNames_resolveAll {g : TypeGraph} (hg : g.Named) (es : List TypeExpr) :
    (resolveAll es).KeepsNames g fun g' ids => ∀ id ∈ ids, g'.Offers id := by
  cases es with
  | nil =>
    unfold resolveAll
    exact .pure hg (List.forall_mem_nil _)
  | cons e rest =>
    unfold resolveAll
    -- The first expression, and then the others in the graph that it leaves.
    refine .bind (keepsNames_resolve hg e) fun id g₁ hg₁ _ hid => ?_
    refine .bind (keepsNames_resolveAll hg₁ rest) fun ids g₂ hg₂ hplaces hids => .pure hg₂ ?_
    -- What the first one stands for is still there.
    exact List.forall_mem_cons.2 ⟨⟨hplaces id hid.mem, hid.notReserved⟩, hids⟩

end

end TypeExpr

/-- A graph keeps names when an expression is resolved in it, also if that fails. -/
theorem TypeGraph.Named.of_resolveIn {g : TypeGraph} (hg : g.Named) (source : String) :
    (TypeExpr.resolveIn g source).2.Named := by
  unfold TypeExpr.resolveIn
  split
  case h_1 => exact hg
  case h_2 e _ => exact (TypeExpr.keepsNames_resolve hg e).named

end GraphCodec
