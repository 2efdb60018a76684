import GraphCodec.Proofs.Schema.Load

/-!
# Types as terms

A `TypeTerm` says what a type is without saying where it stands: a type that every graph starts
with, a declared name, or an array or an application made of such terms.  Structural types are
shared, so in a graph that can be built a term belongs to one place
(`TypeGraph.Built.term_injective`).

`TypeGraph.Carries` holds between a graph and what it becomes while a schema is loaded: types keep
their places and names, and only what classes say about their superclass, interfaces and fields
changes.  So they keep their terms (`TypeGraph.Carries.term`).
-/

namespace GraphCodec

/-- What a type is, wherever it stands. -/
inductive TypeTerm where
  /-- A type that every graph starts with. -/
  | standard (id : TypeId)
  | declared (name : String)
  | array (component : TypeTerm)
  | applied (raw : TypeTerm) (arguments : List TypeTerm)

/-- Whether a term is part of another one, or all of it. -/
inductive TypeTerm.Within : TypeTerm → TypeTerm → Prop where
  | refl (t : TypeTerm) : Within t t
  | component {t component : TypeTerm} : Within t component → Within t (.array component)
  | raw {t raw : TypeTerm} {arguments : List TypeTerm} :
    Within t raw → Within t (.applied raw arguments)
  | argument {t raw argument : TypeTerm} {arguments : List TypeTerm} :
    argument ∈ arguments → Within t argument → Within t (.applied raw arguments)

namespace TypeKind

/-- A sort of types without what a class says about its superclass, interfaces and fields. -/
def bare : TypeKind → TypeKind
  | classType body => classType { body with superclass := none, interfaces := [], fields := [] }
  | interfaceType body =>
    interfaceType { body with superclass := none, interfaces := [], fields := [] }
  | kind => kind

private theorem parts_bare (kind : TypeKind) : kind.bare.parts = kind.parts := by
  cases kind <;> rfl

/-- A structural type has no body that could be left out. -/
private theorem bare_of_parts {kind : TypeKind} (h : kind.parts ≠ []) : kind.bare = kind := by
  cases kind with
  | classType body => exact absurd rfl h
  | interfaceType body => exact absurd rfl h
  | _ => rfl

/-- A structural type has no body. -/
theorem classBody?_of_parts {kind : TypeKind} (h : kind.parts ≠ []) : kind.classBody? = none := by
  cases kind with
  | classType body => exact absurd rfl h
  | interfaceType body => exact absurd rfl h
  | _ => rfl

/-- A body of the same sort, with as many parameters, leaves a type the same up to its body. -/
private theorem bare_withBody {kind : TypeKind} {body body' : ClassBody}
    (h : kind.classBody? = some body)
    (hlibrary : body'.isLibrary = body.isLibrary) (habstract : body'.isAbstract = body.isAbstract)
    (harity : body'.arity = body.arity) : (kind.withBody body').bare = kind.bare := by
  cases kind with
  | classType b =>
    cases h
    simp [withBody, bare, hlibrary, habstract, harity]
  | interfaceType b =>
    cases h
    simp [withBody, bare, hlibrary, habstract, harity]
  | _ => cases h

/-- What is kept of the body of a class. -/
theorem classBody?_bare (kind : TypeKind) : kind.bare.classBody? = kind.classBody?.map fun body =>
    { body with superclass := none, interfaces := [], fields := [] } := by
  cases kind <;> rfl

end TypeKind

namespace TypeGraph

variable {g g' g'' : TypeGraph} {id : TypeId}

/-! ### Terms of places -/

/-- What the type at a place is. -/
def term (g : TypeGraph) (id : TypeId) : TypeTerm :=
  match _h : g.kind id with
  | .arrayType component => .array (g.term component)
  | .parameterized raw arguments =>
    .applied (g.term raw) (arguments.attach.map fun a => g.term a.1)
  | _ => if id.isPrelude then .standard id else .declared (g.name id)
termination_by id.index
decreasing_by
  all_goals
    apply index_lt_of_mem_parts (g := g)
    rw [_h]
  · exact List.mem_cons_self
  · exact List.mem_cons_self
  · exact List.mem_cons_of_mem _ a.2

/-- The term of an array is made of that of its component. -/
theorem term_of_arrayType {component : TypeId} (h : g.kind id = .arrayType component) :
    g.term id = .array (g.term component) := by
  rw [term]
  split <;> simp_all

/-- The term of an application is made of those of the class and the arguments. -/
theorem term_of_parameterized {raw : TypeId} {arguments : List TypeId}
    (h : g.kind id = .parameterized raw arguments) :
    g.term id = .applied (g.term raw) (arguments.map g.term) := by
  rw [term]
  split <;> simp_all

/-- The term of a type without parts is its place in the prelude or its name. -/
theorem term_of_parts (h : (g.kind id).parts = []) :
    g.term id = if id.isPrelude then .standard id else .declared (g.name id) := by
  rw [term]
  split
  case h_1 hk =>
    rw [hk] at h
    cases h
  case h_2 hk =>
    rw [hk] at h
    cases h
  case h_3 => rfl

/-- A type is of the sort that its term says. -/
theorem kind_of_term (g : TypeGraph) (id : TypeId) :
    ((g.kind id).parts = [] ∧
      g.term id = if id.isPrelude then .standard id else .declared (g.name id)) ∨
    (∃ component, g.kind id = .arrayType component ∧ g.term id = .array (g.term component)) ∨
    ∃ raw arguments, g.kind id = .parameterized raw arguments ∧
      g.term id = .applied (g.term raw) (arguments.map g.term) := by
  -- By what the type is made of.
  cases hk : g.kind id with
  | arrayType component => exact Or.inr (Or.inl ⟨component, rfl, term_of_arrayType hk⟩)
  | parameterized raw arguments =>
    exact Or.inr (Or.inr ⟨raw, arguments, rfl, term_of_parameterized hk⟩)
  | _ => exact Or.inl ⟨rfl, term_of_parts (by rw [hk]; rfl)⟩

/-- Only arrays have terms of arrays. -/
theorem kind_of_term_eq_array {t : TypeTerm} (h : g.term id = .array t) :
    ∃ component, g.kind id = .arrayType component ∧ g.term component = t := by
  -- The other two sorts have other terms.
  rcases g.kind_of_term id with ⟨-, ht⟩ | ⟨c, hk, ht⟩ | ⟨raw, arguments, -, ht⟩
  · rw [h] at ht
    split at ht <;> cases ht
  · rw [h, TypeTerm.array.injEq] at ht
    exact ⟨c, hk, ht.symm⟩
  · rw [h] at ht
    cases ht

/-- Only applications have terms of applications. -/
theorem kind_of_term_eq_applied {r : TypeTerm} {ts : List TypeTerm}
    (h : g.term id = .applied r ts) :
    ∃ raw arguments, g.kind id = .parameterized raw arguments ∧ g.term raw = r ∧
      arguments.map g.term = ts := by
  rcases g.kind_of_term id with ⟨-, ht⟩ | ⟨c, -, ht⟩ | ⟨raw, arguments, hk, ht⟩
  · rw [h] at ht
    split at ht <;> cases ht
  · rw [h] at ht
    cases ht
  · rw [h, TypeTerm.applied.injEq] at ht
    exact ⟨raw, arguments, hk, ht.1.symm, ht.2.symm⟩

/-- Only types of the prelude have terms of the prelude. -/
theorem parts_of_term_eq_standard {x : TypeId} (h : g.term id = .standard x) :
    (g.kind id).parts = [] ∧ id.isPrelude ∧ id = x := by
  rcases g.kind_of_term id with ⟨hparts, ht⟩ | ⟨c, -, ht⟩ | ⟨raw, arguments, -, ht⟩
  · rw [h] at ht
    split at ht
    case isTrue hprelude => exact ⟨hparts, hprelude, (TypeTerm.standard.inj ht).symm⟩
    case isFalse => cases ht
  · rw [h] at ht
    cases ht
  · rw [h] at ht
    cases ht

/-- Only declared types have terms that are names. -/
private theorem parts_of_term_eq_declared {name : String} (h : g.term id = .declared name) :
    (g.kind id).parts = [] ∧ id.isPrelude = false ∧ g.name id = name := by
  rcases g.kind_of_term id with ⟨hparts, ht⟩ | ⟨c, -, ht⟩ | ⟨raw, arguments, -, ht⟩
  · rw [h] at ht
    split at ht
    case isTrue => cases ht
    case isFalse hprelude =>
      exact ⟨hparts, Bool.eq_false_iff.2 hprelude, (TypeTerm.declared.inj ht).symm⟩
  · rw [h] at ht
    cases ht
  · rw [h] at ht
    cases ht

/-- Whether some type of a graph is a term. -/
def HasTerm (g : TypeGraph) (t : TypeTerm) : Prop := ∃ id ∈ g.places, g.term id = t

/-- The parts of a type of a graph are in the graph. -/
theorem mem_places_of_mem_parts {p : TypeId} (h : id ∈ g.places) (hp : p ∈ (g.kind id).parts) :
    p ∈ g.places :=
  mem_places.2 (Nat.lt_trans (index_lt_of_mem_parts hp) (mem_places.1 h))

/-- A graph has the parts of its types. -/
theorem HasTerm.within {t u : TypeTerm} (h : g.HasTerm u) (ht : t.Within u) : g.HasTerm t := by
  -- The type itself, or a part of what it is directly made of.
  induction ht with
  | refl => exact h
  | component _ ih =>
    obtain ⟨id, hid, hterm⟩ := h
    obtain ⟨c, hk, hc⟩ := kind_of_term_eq_array hterm
    exact ih ⟨c, mem_places_of_mem_parts hid (by rw [hk]; exact List.mem_cons_self), hc⟩
  | raw _ ih =>
    obtain ⟨id, hid, hterm⟩ := h
    obtain ⟨raw, arguments, hk, hraw, -⟩ := kind_of_term_eq_applied hterm
    exact ih ⟨raw, mem_places_of_mem_parts hid (by rw [hk]; exact List.mem_cons_self), hraw⟩
  | argument hmem _ ih =>
    obtain ⟨id, hid, hterm⟩ := h
    obtain ⟨raw, arguments, hk, -, rfl⟩ := kind_of_term_eq_applied hterm
    obtain ⟨a, ha, rfl⟩ := List.mem_map.1 hmem
    exact ih ⟨a, mem_places_of_mem_parts hid (by rw [hk]; exact List.mem_cons_of_mem _ ha), rfl⟩

/-! ### Structural types are shared -/

/-- The name of a structural type, which goes by the names of its parts. -/
def partsName? (g : TypeGraph) : TypeKind → Option String
  | .arrayType component => some (g.name component ++ "[]")
  | .parameterized raw arguments =>
    some (g.name raw ++ "<" ++ String.intercalate ", " (arguments.map g.name) ++ ">")
  | _ => none

/-- The name of a structural type depends on those of its parts alone. -/
private theorem partsName?_congr {kind : TypeKind} (h : ∀ p ∈ kind.parts, g'.name p = g.name p) :
    g'.partsName? kind = g.partsName? kind := by
  cases kind with
  | arrayType component =>
    rw [partsName?, partsName?, h component List.mem_cons_self]
  | parameterized raw arguments =>
    have harguments : arguments.map g'.name = arguments.map g.name :=
      List.map_congr_left fun a ha => h a (List.mem_cons_of_mem _ ha)
    rw [partsName?, partsName?, h raw List.mem_cons_self, harguments]
  | _ => rfl

/-- What holds of the structural types of every graph that can be built: no two of them are of the
same sort, and each has the name that goes with its parts. -/
structure Shared (g : TypeGraph) : Prop where
  unique : ∀ a b, a ∈ g.places → b ∈ g.places → (g.kind a).parts ≠ [] → g.kind a = g.kind b → a = b
  name : ∀ id name, g.partsName? (g.kind id) = some name → g.name id = name

/-- A new type leaves the names of the others as they are. -/
theorem name_push_of_mem {t : TypeDescriptor} {parts : ∀ p ∈ t.kind.parts, p.index < g.size}
    (h : id ∈ g.places) : (g.push t parts).name id = g.name id := by
  rw [name, descriptor_push_of_mem h, name]

/-- A new type leaves the kinds of the others as they are. -/
theorem kind_push_of_mem {t : TypeDescriptor} {parts : ∀ p ∈ t.kind.parts, p.index < g.size}
    (h : id ∈ g.places) : (g.push t parts).kind id = g.kind id := by
  rw [kind, descriptor_push_of_mem h, kind]

/-- The kind at the new place is that of the new type. -/
theorem kind_push_next {t : TypeDescriptor} {parts : ∀ p ∈ t.kind.parts, p.index < g.size} :
    (g.push t parts).kind g.next = t.kind := by
  rw [kind, descriptor_push_next]

/-- A type without parts has no name that is made of names. -/
theorem partsName?_eq_none {kind : TypeKind} (h : kind.parts = []) : g.partsName? kind = none := by
  cases kind with
  | arrayType component => cases h
  | parameterized raw arguments => cases h
  | _ => rfl

/-- Putting a type at the next place that is not there yet. -/
theorem Shared.push (hg : g.Shared) {t : TypeDescriptor}
    (parts : ∀ p ∈ t.kind.parts, p.index < g.size)
    (hnew : t.kind.parts ≠ [] → ∀ a ∈ g.places, g.kind a ≠ t.kind)
    (hname : ∀ name, g.partsName? t.kind = some name → t.name = name) :
    (g.push t parts).Shared where
  unique := by
    intro a b ha hb hparts hab
    -- The new type differs from each old one, and old ones are told apart as before.
    rcases mem_places_push.1 ha with ha | rfl <;> rcases mem_places_push.1 hb with hb | rfl
    · rw [kind_push_of_mem ha] at hparts hab
      rw [kind_push_of_mem hb] at hab
      exact hg.unique a b ha hb hparts hab
    · rw [kind_push_of_mem ha] at hparts hab
      rw [kind_push_next] at hab
      exact absurd hab (hnew (hab ▸ hparts) a ha)
    · rw [kind_push_next] at hparts hab
      rw [kind_push_of_mem hb] at hab
      exact absurd hab.symm (hnew hparts b hb)
    · rfl
  name := by
    intro id n hn
    -- Names made of old parts are what they were.
    have hold : ∀ {kind : TypeKind}, (∀ p ∈ kind.parts, p ∈ g.places) →
        (g.push t parts).partsName? kind = g.partsName? kind := fun hkind =>
      partsName?_congr fun p hp => name_push_of_mem (hkind p hp)
    -- An old type is named as before, and the new one as it should be.
    by_cases hmem : id ∈ g.places
    · rw [kind_push_of_mem hmem, hold fun p => mem_places_of_mem_parts hmem] at hn
      rw [name_push_of_mem hmem]
      exact hg.name id n hn
    · by_cases hnext : id = g.next
      · rw [hnext, kind_push_next, hold fun p hp => mem_places.2 (parts p hp)] at hn
        rw [hnext, TypeGraph.name, descriptor_push_next]
        exact hname n hn
      · rw [kind_of_not_mem fun h => (mem_places_push.1 h).elim hmem hnext] at hn
        cases hn

/-- A structural type stays as it is where a class gets another body. -/
theorem kind_setBody_of_parts {target : TypeId} {body : ClassBody} (h : (g.kind id).parts ≠ []) :
    (g.setBody target body).kind id = g.kind id := by
  by_cases hmem : target ∈ g.places
  · by_cases hid : id = target
    · rw [hid, kind_setBody_self hmem]
      rw [hid] at h
      generalize g.kind target = kind at h ⊢
      -- A structural type takes no body.
      cases kind with
      | arrayType c => rfl
      | parameterized raw arguments => rfl
      | _ => exact absurd rfl h
    · exact kind_setBody_of_ne hid
  · exact setBody_of_not_mem hmem id

/-- A new body leaves structural types shared. -/
private theorem Shared.setBody (hg : g.Shared) (target : TypeId) (body : ClassBody) :
    (g.setBody target body).Shared where
  unique := by
    intro a b ha hb hparts hab
    -- Two structural types are told apart as before, because they have not changed.
    have hparts' : ((g.setBody target body).kind b).parts ≠ [] := hab ▸ hparts
    rw [parts_setBody] at hparts hparts'
    rw [kind_setBody_of_parts hparts, kind_setBody_of_parts hparts'] at hab
    exact hg.unique a b (mem_places_setBody.1 ha) (mem_places_setBody.1 hb) hparts hab
  name := by
    intro id n hn
    -- A type whose name is made of names has parts.
    have hparts : (g.kind id).parts ≠ [] := by
      intro hnil
      have hnil' : ((g.setBody target body).kind id).parts = [] := by rw [parts_setBody, hnil]
      rw [partsName?_eq_none hnil'] at hn
      cases hn
    rw [kind_setBody_of_parts hparts, partsName?_congr fun p _ => name_setBody p] at hn
    rw [name_setBody]
    exact hg.name id n hn

/-- Sharing a structural type under the name that goes with its parts. -/
private theorem Shared.intern (hg : g.Shared) {t : TypeDescriptor}
    (hname : ∀ name, g.partsName? t.kind = some name → t.name = name) : (g.intern t).2.Shared :=
  intern_induction hg fun parts hnew => hg.push parts (fun _ => hnew) hname

/-- A declaration leaves structural types shared. -/
private theorem Shared.declare (hg : g.Shared) {t : TypeDescriptor} {parts}
    (h : g.declare t parts = .ok (id, g')) : g'.Shared := by
  obtain ⟨-, -, rfl⟩ := declare_eq_ok.1 h
  -- The declared type has no parts, so there is nothing to be shared.
  refine hg.push _ (fun hne => absurd parts hne) fun name hname => ?_
  rw [partsName?_eq_none parts] at hname
  cases hname

/-- None of the types that every graph starts with is made of others. -/
theorem parts_prelude (id : TypeId) : (prelude.kind id).parts = [] := by
  have hparts : ∀ i < 32, (prelude.kind ⟨i⟩).parts = [] := by decide
  by_cases hlt : id.index < 32
  · exact hparts id.index hlt
  · rw [kind_of_not_mem fun h => hlt (mem_places.1 h)]
    rfl

/-- The prelude has no structural types that could be shared. -/
private theorem shared_prelude : prelude.Shared := by
  refine ⟨fun a _ _ _ hne => absurd (parts_prelude a) hne, fun id name hname => ?_⟩
  rw [partsName?_eq_none (parts_prelude id)] at hname
  cases hname

/-- The structural types of a graph that can be built are shared. -/
theorem Built.shared (h : g.Built) : g.Shared := by
  -- Declarations put in types without parts, changes set bodies, and structural types are looked up
  -- before they are put in.
  induction h with
  | prelude => exact shared_prelude
  | declareClass _ h ih => exact ih.declare h
  | declareInterface _ h ih => exact ih.declare h
  | declareLibraryClass _ h ih => exact ih.declare h
  | declareEnum _ h ih => exact ih.declare h
  | setSuperclass _ _ h ih =>
    obtain ⟨body, -, -, -, rfl⟩ := setSuperclass_eq_ok.1 h
    exact ih.setBody _ _
  | addInterface _ _ h ih =>
    obtain ⟨body, -, -, rfl⟩ := addInterface_eq_ok.1 h
    exact ih.setBody _ _
  | setAbstract _ h ih =>
    obtain ⟨body, -, rfl⟩ := setAbstract_eq_ok.1 h
    exact ih.setBody _ _
  | addField _ h ih =>
    obtain ⟨body, -, rfl⟩ := addField_eq_ok.1 h
    exact ih.setBody _ _
  | array component _ ih => exact ih.intern fun _ h => Option.some.inj h
  | parameterized _ h ih =>
    rcases parameterized_eq_ok.1 h with ⟨-, -, rfl⟩ | ⟨-, -, -, -, heq⟩
    · exact ih
    · rw [(Prod.mk.inj heq).2]
      exact ih.intern fun _ h => Option.some.inj h

/-- A term belongs to one place of a graph that can be built. -/
theorem Built.term_injective (hg : g.Built) {a b : TypeId} (ha : a ∈ g.places) (hb : b ∈ g.places)
    (h : g.term a = g.term b) : a = b := by
  -- Parts stand below what is made of them, so equal terms of parts are equal places by induction.
  induction hn : a.index using Nat.strongRecOn generalizing a b with
  | ind n ih =>
    have hpart : ∀ p ∈ (g.kind a).parts, ∀ q ∈ (g.kind b).parts, g.term p = g.term q → p = q :=
      fun p hp q hq hpq => ih p.index (hn ▸ index_lt_of_mem_parts hp)
        (mem_places_of_mem_parts ha hp) (mem_places_of_mem_parts hb hq) hpq rfl
    rcases g.kind_of_term a with ⟨hparts, ht⟩ | ⟨c, hk, ht⟩ | ⟨raw, arguments, hk, ht⟩
    -- A type of the prelude is its place, and a declared one its name, which no other has.
    · split at ht
      case isTrue => exact (parts_of_term_eq_standard (h ▸ ht)).2.2.symm
      case isFalse hprelude =>
        obtain ⟨hparts', hprelude', hname⟩ := parts_of_term_eq_declared (h ▸ ht)
        exact hg.consistent.name_inj a b ha hb
          (TypeId.isReserved_of_isPrelude (Bool.eq_false_iff.2 hprelude))
          (TypeId.isReserved_of_isPrelude hprelude') hparts hparts' hname.symm
    -- Arrays of one component are shared.
    · obtain ⟨c', hk', hc⟩ := kind_of_term_eq_array (h ▸ ht)
      have heq : c = c' := hpart c (by rw [hk]; exact List.mem_cons_self) c'
        (by rw [hk']; exact List.mem_cons_self) hc.symm
      exact hg.shared.unique a b ha hb (by rw [hk]; exact List.cons_ne_nil _ _)
        (by rw [hk, hk', heq])
    -- So are applications of one class to the same arguments.
    · obtain ⟨raw', arguments', hk', hraw, hargs⟩ := kind_of_term_eq_applied (h ▸ ht)
      have heq : raw = raw' := hpart raw (by rw [hk]; exact List.mem_cons_self) raw'
        (by rw [hk']; exact List.mem_cons_self) hraw.symm
      have hall : arguments = arguments' := List.eq_of_map_eq (fun p hp q hq =>
        hpart p (by rw [hk]; exact List.mem_cons_of_mem _ hp) q
          (by rw [hk']; exact List.mem_cons_of_mem _ hq)) hargs.symm
      exact hg.shared.unique a b ha hb (by rw [hk]; exact List.cons_ne_nil _ _)
        (by rw [hk, hk', heq, hall])

/-! ### What stays while a schema is loaded -/

/-- What a graph keeps: its types stand where they did, under their names, and classes change only
in what they say about their superclass, interfaces and fields. -/
structure Carries (g g' : TypeGraph) : Prop where
  places : ∀ id ∈ g.places, id ∈ g'.places
  name : ∀ id ∈ g.places, g'.name id = g.name id
  bare : ∀ id ∈ g.places, (g'.kind id).bare = (g.kind id).bare

namespace Carries

theorem refl (g : TypeGraph) : g.Carries g := ⟨fun _ h => h, fun _ _ => rfl, fun _ _ => rfl⟩

/-- What carries over from graph to graph carries over altogether. -/
theorem trans (h : g.Carries g') (h' : g'.Carries g'') : g.Carries g'' where
  places := fun id hid => h'.places id (h.places id hid)
  name := fun id hid => (h'.name id (h.places id hid)).trans (h.name id hid)
  bare := fun id hid => (h'.bare id (h.places id hid)).trans (h.bare id hid)

/-- A graph carries over to the one with a new type. -/
private theorem push {t : TypeDescriptor} {parts : ∀ p ∈ t.kind.parts, p.index < g.size} :
    g.Carries (g.push t parts) where
  places := fun _ hid => mem_places_push.2 (Or.inl hid)
  name := fun _ => name_push_of_mem
  bare := fun _ hid => by rw [kind_push_of_mem hid]

/-- A graph carries over to the one with a body that differs in what a class says about other
types. -/
theorem setBody {body body' : ClassBody} (hbody : g.classBody? id = some body)
    (hlibrary : body'.isLibrary = body.isLibrary) (habstract : body'.isAbstract = body.isAbstract)
    (harity : body'.arity = body.arity) : g.Carries (g.setBody id body') where
  places := fun _ hid => mem_places_setBody.2 hid
  name := fun x _ => name_setBody x
  bare := by
    intro x hx
    -- Only the class itself has another body.
    by_cases heq : x = id
    · rw [heq, kind_setBody_self (heq ▸ hx), TypeKind.bare_withBody hbody hlibrary habstract harity]
    · rw [kind_setBody_of_ne heq]

variable (h : g.Carries g')

include h

theorem parts (hid : id ∈ g.places) : (g'.kind id).parts = (g.kind id).parts := by
  rw [← TypeKind.parts_bare, h.bare id hid, TypeKind.parts_bare]

/-- Structural types keep their kinds. -/
private theorem kind_of_parts (hid : id ∈ g.places) (hparts : (g.kind id).parts ≠ []) :
    g'.kind id = g.kind id := by
  rw [← TypeKind.bare_of_parts hparts, ← h.bare id hid,
    TypeKind.bare_of_parts (by rw [h.parts hid]; exact hparts)]

/-- Types keep their terms. -/
theorem term (hid : id ∈ g.places) : g'.term id = g.term id := by
  -- Parts stand below what is made of them, and keep their terms by induction.
  induction hn : id.index using Nat.strongRecOn generalizing id with
  | ind n ih =>
    have hpart : ∀ p ∈ (g.kind id).parts, g'.term p = g.term p := fun p hp =>
      ih p.index (hn ▸ index_lt_of_mem_parts hp) (mem_places_of_mem_parts hid hp) rfl
    rcases g.kind_of_term id with ⟨hparts, ht⟩ | ⟨c, hk, ht⟩ | ⟨raw, arguments, hk, ht⟩
    -- A type without parts keeps its name.
    · rw [ht, term_of_parts (by rw [h.parts hid, hparts]), h.name id hid]
    -- An array is still one, of a component that has kept its term.
    · have hk' := h.kind_of_parts hid (by rw [hk]; exact List.cons_ne_nil _ _)
      rw [ht, term_of_arrayType (hk'.trans hk), hpart c (by rw [hk]; exact List.mem_cons_self)]
    -- So is an application.
    · have hk' := h.kind_of_parts hid (by rw [hk]; exact List.cons_ne_nil _ _)
      have harguments : arguments.map g'.term = arguments.map g.term :=
        List.map_congr_left fun a ha => hpart a (by rw [hk]; exact List.mem_cons_of_mem _ ha)
      rw [ht, term_of_parameterized (hk'.trans hk), harguments,
        hpart raw (by rw [hk]; exact List.mem_cons_self)]

/-- A class keeps what it does not say about its superclass, interfaces and fields. -/
theorem classBody?_map (hid : id ∈ g.places) :
    ((g'.classBody? id).map fun body =>
        ({ body with superclass := none, interfaces := [], fields := [] } : ClassBody)) =
      (g.classBody? id).map fun body =>
        { body with superclass := none, interfaces := [], fields := [] } := by
  rw [classBody?, classBody?, ← TypeKind.classBody?_bare, h.bare id hid, TypeKind.classBody?_bare]

/-- Classes and interfaces stay what they are. -/
theorem isSome_classBody? (hid : id ∈ g.places) :
    (g'.classBody? id).isSome = (g.classBody? id).isSome := by
  have := congrArg Option.isSome (h.classBody?_map hid)
  rwa [Option.isSome_map, Option.isSome_map] at this

/-- Classes keep the numbers of their parameters. -/
theorem arity (hid : id ∈ g.places) :
    (g'.classBody? id).map (·.arity) = (g.classBody? id).map (·.arity) := by
  have := congrArg (Option.map (·.arity)) (h.classBody?_map hid)
  rwa [Option.map_map, Option.map_map] at this

end Carries

/-! ### Putting structural types into a graph -/

/-- What a graph is after structural types whose terms have a property have been put into it. -/
structure Adds (g g' : TypeGraph) (P : TypeTerm → Prop) : Prop where
  carries : g.Carries g'
  classBody? : ∀ id ∈ g.places, g'.classBody? id = g.classBody? id
  new : ∀ id ∈ g'.places, id ∉ g.places → (g'.kind id).parts ≠ [] ∧ P (g'.term id)

namespace Adds

variable {P Q : TypeTerm → Prop}

theorem refl (g : TypeGraph) (P : TypeTerm → Prop) : g.Adds g P :=
  ⟨.refl g, fun _ _ => rfl, fun _ h hnot => absurd h hnot⟩

theorem mono (h : g.Adds g' P) (hP : ∀ t, P t → Q t) : g.Adds g' Q :=
  ⟨h.carries, h.classBody?, fun id hid hnot => ⟨(h.new id hid hnot).1, hP _ (h.new id hid hnot).2⟩⟩

/-- Two steps that add types within others add them so together. -/
theorem trans (h : g.Adds g' P) (h' : g'.Adds g'' P) : g.Adds g'' P where
  carries := h.carries.trans h'.carries
  classBody? := fun id hid =>
    (h'.classBody? id (h.carries.places id hid)).trans (h.classBody? id hid)
  new := by
    intro id hid hnot
    -- A type that is new at the first step keeps its parts and its term at the second.
    by_cases hmem : id ∈ g'.places
    · rw [h'.carries.parts hmem, h'.carries.term hmem]
      exact h.new id hmem hnot
    · exact h'.new id hid hmem

end Adds

/-- What holds of a place and a graph that the type with a term has been put into, with the parts
that were missing. -/
structure Puts (g : TypeGraph) (id : TypeId) (g' : TypeGraph) (t : TypeTerm) : Prop where
  adds : g.Adds g' (·.Within t)
  mem : id ∈ g'.places
  term : g'.term id = t

/-- Sharing a structural type puts nothing but the type into the graph. -/
theorem puts_intern {t : TypeDescriptor} {u : TypeTerm} (hparts : t.kind.parts ≠ [])
    (hmem : ∀ p ∈ t.kind.parts, p ∈ g.places)
    (hterm : ∀ g' id, g.Carries g' → g'.kind id = t.kind → g'.term id = u) :
    g.Puts (g.intern t).1 (g.intern t).2 u := by
  unfold intern
  split
  -- A type of this kind is there, so the graph stays as it is.
  case h_1 found hfound =>
    have hkind := List.find?_some hfound
    exact ⟨.refl g _, List.mem_of_find?_eq_some hfound,
      hterm g found (.refl g) (of_decide_eq_true hkind)⟩
  case h_2 =>
    -- None is there, so it takes the next place.
    have hlt : ∀ p ∈ t.kind.parts, p.index < g.size := fun p hp => mem_places.1 (hmem p hp)
    rw [dif_pos hlt]
    have hnext : (g.push t hlt).term g.next = u := hterm _ _ .push kind_push_next
    show g.Puts g.next (g.push t hlt) u
    refine ⟨⟨.push, fun id => classBody?_push_of_mem, fun id hid hnot => ?_⟩,
      mem_places_push.2 (Or.inr rfl), hnext⟩
    -- Only the next place is new.
    rw [(mem_places_push.1 hid).resolve_left hnot, hnext, kind_push_next]
    exact ⟨hparts, .refl u⟩

/-- Forming an array puts the array into the graph. -/
theorem puts_array {component : TypeId} (h : component ∈ g.places) :
    g.Puts (g.array component).1 (g.array component).2 (.array (g.term component)) := by
  refine puts_intern (List.cons_ne_nil _ _) (fun p hp => ?_) fun g' id hcarries hkind => ?_
  · rw [List.mem_singleton.1 hp]
    exact h
  · rw [term_of_arrayType hkind, hcarries.term h]

end TypeGraph

/-- A term applied to type arguments.  Without arguments it stays as it is. -/
def TypeTerm.apply (raw : TypeTerm) (arguments : List TypeTerm) : TypeTerm :=
  if arguments.isEmpty then raw else .applied raw arguments

/-- Whether something with a number of type parameters, or with none because it is no class, can be
applied to a number of type arguments. -/
def Applies (arity : Option Nat) (count : Nat) : Prop :=
  count = 0 ∨ arity.any fun n => n = 0 ∨ n = count

instance (arity : Option Nat) (count : Nat) : Decidable (Applies arity count) :=
  inferInstanceAs (Decidable (_ ∨ _))

/-- A term with a number of levels of arrays around it. -/
def TypeTerm.arrays (t : TypeTerm) : Nat → TypeTerm
  | 0 => t
  | dims + 1 => (TypeTerm.array t).arrays dims

/-- What is within a term is within the arrays of it. -/
theorem TypeTerm.Within.arrays {t u : TypeTerm} (h : t.Within u) (dims : Nat) :
    t.Within (u.arrays dims) := by
  induction dims generalizing u with
  | zero => exact h
  | succ dims ih => exact ih (.component h)

/-- What is within an argument is within the application. -/
theorem TypeTerm.Within.apply {t argument raw : TypeTerm} {arguments : List TypeTerm}
    (hmem : argument ∈ arguments) (h : t.Within argument) : t.Within (raw.apply arguments) := by
  rw [TypeTerm.apply, if_neg fun hnil => List.ne_nil_of_mem hmem (List.isEmpty_iff.1 hnil)]
  exact .argument hmem h

namespace TypeGraph

variable {g g' : TypeGraph} {id raw : TypeId} {arguments : List TypeId}

/-- Applying a class puts the application into the graph, and the number of arguments is right. -/
theorem puts_parameterized (hraw : raw ∈ g.places) (harguments : ∀ a ∈ arguments, a ∈ g.places)
    (h : g.parameterized raw arguments = .ok (id, g')) :
    g.Puts id g' ((g.term raw).apply (arguments.map g.term)) ∧
      Applies ((g.classBody? raw).map (·.arity)) arguments.length := by
  rcases parameterized_eq_ok.1 h with ⟨rfl, rfl, rfl⟩ | ⟨hne, body, hbody, harity, heq⟩
  -- Without arguments the class itself is meant.
  · exact ⟨⟨.refl g' _, hraw, rfl⟩, Or.inl rfl⟩
  · have happlied : (g.term raw).apply (arguments.map g.term) =
        .applied (g.term raw) (arguments.map g.term) := by
      rw [TypeTerm.apply, List.isEmpty_map, if_neg (by rwa [List.isEmpty_iff])]
    rw [happlied, (Prod.mk.inj heq).1, (Prod.mk.inj heq).2]
    refine ⟨puts_intern (List.cons_ne_nil _ _) (fun p hp => ?_) fun g' id hcarries hkind => ?_,
      Or.inr ?_⟩
    -- All parts are in the graph.
    · rcases List.mem_cons.1 hp with rfl | hp
      · exact hraw
      · exact harguments p hp
    -- They keep their terms while the application is put in.
    · rw [term_of_parameterized hkind, hcarries.term hraw]
      exact congrArg _ (List.map_congr_left fun a ha => hcarries.term (harguments a ha))
    · rw [hbody]
      exact decide_eq_true harity

/-- A class can be applied to as many arguments as it has parameters. -/
theorem exists_parameterized
    (h : Applies ((g.classBody? raw).map (·.arity)) arguments.length) :
    ∃ id g', g.parameterized raw arguments = .ok (id, g') := by
  -- Without arguments nothing is checked, and otherwise their number is.
  by_cases hnil : arguments = []
  · exact ⟨raw, g, parameterized_eq_ok.2 (Or.inl ⟨hnil, rfl, rfl⟩)⟩
  · have hany := h.resolve_left fun hlength => hnil (List.length_eq_zero_iff.1 hlength)
    rw [Option.any_map, Option.any_eq_true] at hany
    obtain ⟨body, hbody, hcount⟩ := hany
    exact ⟨_, _, parameterized_eq_ok.2 (Or.inr ⟨hnil, body, hbody, of_decide_eq_true hcount, rfl⟩)⟩

end TypeGraph

end GraphCodec
