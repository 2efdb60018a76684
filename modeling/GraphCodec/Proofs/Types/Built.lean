import GraphCodec.Generation.Classification
import GraphCodec.Proofs.Except
import GraphCodec.Types.Declaration

/-!
# Graphs that can be built

`TypeGraph.Built` are the graphs that declarations yield, in any order and number.  They are
consistent (`TypeGraph.Built.consistent`): whatever is named as being above a class is a class or an
interface, and no two declared types share a name, because a declaration is refused when its name is
taken.
-/

namespace GraphCodec

/-- Four places are reserved, from the 28th on. -/
theorem TypeId.isReserved_eq_true {id : TypeId} :
    id.isReserved = true ↔ 28 ≤ id.index ∧ id.index < 32 := by
  rw [isReserved, Bool.and_eq_true, decide_eq_true_eq, decide_eq_true_eq]
  rfl

/-- Every other place stands before or behind those. -/
theorem TypeId.isReserved_eq_false {id : TypeId} :
    id.isReserved = false ↔ id.index < 28 ∨ 32 ≤ id.index := by
  rw [Bool.eq_false_iff, Ne, isReserved_eq_true]
  omega

/-- The places that are kept free are among those of the types that every graph starts with. -/
theorem TypeId.isReserved_of_isPrelude {id : TypeId} (h : id.isPrelude = false) :
    id.isReserved = false :=
  isReserved_eq_false.2 (Or.inr (Nat.not_lt.1 (of_decide_eq_false h)))

namespace TypeKind

theorem parents_eq_nil {kind : TypeKind} (h : kind.classBody? = none) : kind.parents = [] := by
  rw [parents, h]

/-- Only a class or an interface takes a new body. -/
theorem classBody?_withBody (kind : TypeKind) (body : ClassBody) :
    (kind.withBody body).classBody? = kind.classBody?.map fun _ => body := by
  cases kind <;> rfl

end TypeKind

namespace TypeGraph

variable {g g' : TypeGraph} {id : TypeId}

/-- The places of a graph are the indices below its size. -/
theorem mem_places : id ∈ g.places ↔ id.index < g.size := by
  simp only [places, List.mem_map, List.mem_range]
  constructor
  · rintro ⟨i, hi, rfl⟩
    exact hi
  · intro h
    exact ⟨id.index, h, rfl⟩

/-- What is above a class is what its body names. -/
theorem parents_eq {body : ClassBody} (h : g.classBody? id = some body) :
    (g.kind id).parents = body.superclass.toList ++ body.interfaces := by
  rw [classBody?] at h
  rw [TypeKind.parents, h]

/-- A place outside of the graph holds what stands at a place that is kept free. -/
theorem descriptor_of_not_mem (h : id ∉ g.places) : g.descriptor id = .reserved := by
  rw [mem_places, Nat.not_lt] at h
  rw [descriptor, Array.getElem?_eq_none h]
  rfl

theorem kind_of_not_mem (h : id ∉ g.places) : g.kind id = TypeDescriptor.reserved.kind := by
  rw [kind, descriptor_of_not_mem h]

/-! ### What changes change -/

section Push

variable {t : TypeDescriptor} {parts : ∀ p ∈ t.kind.parts, p.index < g.size}

theorem size_push : (g.push t parts).size = g.size + 1 := Array.size_push _

/-- The new type is found at the place that was next. -/
theorem descriptor_push_next : (g.push t parts).descriptor g.next = t := by
  show ((g.types.push t)[g.types.size]?).getD _ = t
  rw [Array.getElem?_push_size]
  rfl

/-- A new type leaves the others as they are. -/
theorem descriptor_push_of_mem (h : id ∈ g.places) :
    (g.push t parts).descriptor id = g.descriptor id := by
  show ((g.types.push t)[id.index]?).getD _ = (g.types[id.index]?).getD _
  have hne : id.index ≠ g.types.size := Nat.ne_of_lt (mem_places.1 h)
  rw [Array.getElem?_push, if_neg hne]

/-- The places are the old ones and the new one. -/
theorem mem_places_push : id ∈ (g.push t parts).places ↔ id ∈ g.places ∨ id = g.next := by
  have hnext : id = g.next ↔ id.index = g.size := by
    obtain ⟨i⟩ := id
    exact ⟨fun h => congrArg TypeId.index h, fun h => congrArg TypeId.mk h⟩
  rw [mem_places, mem_places, size_push, hnext]
  omega

end Push

section SetBody

variable {body : ClassBody} {target : TypeId}

theorem size_setBody : (g.setBody target body).size = g.size := Array.size_modify ..

theorem mem_places_setBody : id ∈ (g.setBody target body).places ↔ id ∈ g.places := by
  rw [mem_places, mem_places, size_setBody]

/-- A new body leaves every name as it is. -/
theorem name_setBody (id : TypeId) : (g.setBody target body).name id = g.name id := by
  show (((g.types.modify target.index _)[id.index]?).getD _).name = _
  rw [Array.getElem?_modify, name, descriptor]
  -- The type is changed in its body alone, and any other type not at all.
  split
  · cases g.types[id.index]? <;> rfl
  · rfl

/-- A new body leaves the other types as they are. -/
theorem kind_setBody_of_ne (h : id ≠ target) : (g.setBody target body).kind id = g.kind id := by
  have hne : target.index ≠ id.index := by
    intro heq
    exact h (congrArg TypeId.mk heq.symm)
  show (((g.types.modify target.index _)[id.index]?).getD _).kind = _
  rw [Array.getElem?_modify, if_neg hne]
  rfl

/-- The class that gets the body has it afterwards. -/
theorem kind_setBody_self (h : target ∈ g.places) :
    (g.setBody target body).kind target = (g.kind target).withBody body := by
  rw [mem_places] at h
  have hsome : g.types[target.index]? = some g.types[target.index] := Array.getElem?_eq_getElem h
  show (((g.types.modify target.index _)[target.index]?).getD _).kind = _
  rw [Array.getElem?_modify, if_pos rfl, kind, descriptor, hsome]
  rfl

/-- Outside the graph there is nothing to be changed. -/
theorem setBody_of_not_mem (h : target ∉ g.places) (id : TypeId) :
    (g.setBody target body).kind id = g.kind id := by
  -- The target is outside before and after.
  by_cases hid : id = target
  · rw [hid, kind_of_not_mem h, kind_of_not_mem fun hm => h (mem_places_setBody.1 hm)]
  · exact kind_setBody_of_ne hid

/-- The structural types stay as they are. -/
theorem parts_setBody (id : TypeId) :
    ((g.setBody target body).kind id).parts = (g.kind id).parts := by
  by_cases hmem : target ∈ g.places
  · by_cases hid : id = target
    · rw [hid, kind_setBody_self hmem, TypeKind.parts_withBody]
    · rw [kind_setBody_of_ne hid]
  · rw [setBody_of_not_mem hmem]

/-- The classes and interfaces stay classes and interfaces. -/
theorem isSome_classBody?_setBody (id : TypeId) :
    ((g.setBody target body).classBody? id).isSome = (g.classBody? id).isSome := by
  unfold classBody?
  by_cases hmem : target ∈ g.places
  · by_cases hid : id = target
    · rw [hid, kind_setBody_self hmem, TypeKind.classBody?_withBody, Option.isSome_map]
    · rw [kind_setBody_of_ne hid]
  · rw [setBody_of_not_mem hmem]

/-- What a class declares after a change is what it declared before, or the new body. -/
theorem classBody?_setBody {b : ClassBody} (h : (g.setBody target body).classBody? id = some b) :
    g.classBody? id = some b ∨ id = target ∧ id ∈ g.places ∧ b = body := by
  unfold classBody? at h ⊢
  -- Only a target in the graph is changed, and only that one.
  by_cases hmem : target ∈ g.places
  · by_cases hid : id = target
    · rw [hid, kind_setBody_self hmem, TypeKind.classBody?_withBody] at h
      obtain ⟨_, _, rfl⟩ := Option.map_eq_some_iff.1 h
      exact Or.inr ⟨hid, hid ▸ hmem, rfl⟩
    · rw [kind_setBody_of_ne hid] at h
      exact Or.inl h
  · rw [setBody_of_not_mem hmem] at h
    exact Or.inl h

end SetBody

/-! ### What the operations do -/

section Operations

/-- A type is declared when its name is free, and then stands at the next place. -/
theorem declare_eq_ok {t : TypeDescriptor} {parts : t.kind.parts = []} :
    g.declare t parts = .ok (id, g') ↔
      g.lookup? t.name = none ∧ id = g.next ∧ g' = g.push t (by simp [parts]) := by
  unfold declare
  cases g.lookup? t.name with
  | none => simp [eq_comm]
  | some other => simp

/-- What a class declares, if its body was found. -/
theorem body_eq_ok {body : ClassBody} : g.body id = .ok body ↔ g.classBody? id = some body := by
  unfold TypeGraph.body
  cases g.classBody? id with
  | none => simp
  | some b => simp

/-- A class gets a superclass that is a class and not below it. -/
theorem setSuperclass_eq_ok {above : TypeId} : g.setSuperclass id above = .ok g' ↔
    ∃ body, g.classBody? id = some body ∧ (g.classBody? above).isSome ∧
      ¬(id = above ∨ id ∈ g.ancestors above) ∧
        g' = g.setBody id { body with superclass := some above } := by
  simp only [setSuperclass, Except.bind_eq_ok, body_eq_ok, Option.isSome_iff_exists]
  constructor
  -- The checks are those of the body above, of the body below, and of the climb.
  · rintro ⟨top, htop, body, hbody, h⟩
    split at h
    · cases h
    case isFalse hfree =>
      cases h
      exact ⟨body, hbody, ⟨top, htop⟩, hfree, rfl⟩
  · rintro ⟨body, hbody, ⟨top, htop⟩, hfree, rfl⟩
    exact ⟨top, htop, body, hbody, if_neg hfree⟩

/-- An interface is added to a class, below a class or an interface. -/
theorem addInterface_eq_ok {above : TypeId} : g.addInterface id above = .ok g' ↔
    ∃ body, g.classBody? id = some body ∧ (g.classBody? above).isSome ∧
      g' = g.setBody id { body with interfaces := body.interfaces ++ [above] } := by
  -- There is no check but the two bodies.
  simp only [addInterface, Except.bind_eq_ok, body_eq_ok, Option.isSome_iff_exists]
  constructor
  · rintro ⟨top, htop, body, hbody, h⟩
    cases h
    exact ⟨body, hbody, ⟨top, htop⟩, rfl⟩
  · rintro ⟨body, hbody, ⟨top, htop⟩, rfl⟩
    exact ⟨top, htop, body, hbody, rfl⟩

/-- A class is made abstract or not, and nothing else about it changes. -/
theorem setAbstract_eq_ok {isAbstract : Bool} : g.setAbstract id isAbstract = .ok g' ↔
    ∃ body, g.classBody? id = some body ∧
      g' = g.setBody id { body with isAbstract := isAbstract } := by
  -- The check is that of the body.
  simp only [setAbstract, Except.bind_eq_ok, body_eq_ok]
  exact exists_congr fun body => and_congr_right fun _ => ⟨fun h => (Except.ok.inj h).symm,
    fun h => h ▸ rfl⟩

/-- A field is put behind those of a class. -/
theorem addField_eq_ok {field : Field} : g.addField id field = .ok g' ↔
    ∃ body, g.classBody? id = some body ∧
      g' = g.setBody id { body with fields := body.fields ++ [field] } := by
  -- The check is that of the body.
  simp only [addField, Except.bind_eq_ok, body_eq_ok]
  exact exists_congr fun body => and_congr_right fun _ => ⟨fun h => (Except.ok.inj h).symm,
    fun h => h ▸ rfl⟩

/-- Sharing a type leaves the graph as it is, or puts the type at the next place if it is not there
yet. -/
theorem intern_induction {P : TypeGraph → Prop} {t : TypeDescriptor} (hg : P g)
    (hpush : ∀ parts, (∀ a ∈ g.places, g.kind a ≠ t.kind) → P (g.push t parts)) :
    P (g.intern t).2 := by
  unfold intern
  split
  -- The type is shared with one of the graph.
  case h_1 => exact hg
  case h_2 hnone =>
    split
    -- None of the graph has the kind.
    case isTrue hlt =>
      refine hpush hlt fun a ha hkind => ?_
      have := List.find?_eq_none.1 hnone a ha
      -- The search has looked at every place.
      simp [hkind] at this
    case isFalse => exact hg

/-- A class or interface applied to type arguments. -/
def application (g : TypeGraph) (raw : TypeId) (arguments : List TypeId) : TypeDescriptor where
  name := g.name raw ++ "<" ++ String.intercalate ", " (arguments.map g.name) ++ ">"
  kind := .parameterized raw arguments

/-- A class is applied to as many arguments as it has parameters; without arguments any type stays
as it is. -/
theorem parameterized_eq_ok {raw : TypeId} {arguments : List TypeId} :
    g.parameterized raw arguments = .ok (id, g') ↔ arguments = [] ∧ id = raw ∧ g' = g ∨
      arguments ≠ [] ∧ ∃ body, g.classBody? raw = some body ∧
        (body.arity = 0 ∨ body.arity = arguments.length) ∧
          (id, g') = g.intern (g.application raw arguments) := by
  unfold parameterized
  cases arguments with
  -- Without arguments no check is made.
  | nil => simp [eq_comm]
  | cons a rest =>
    -- The refusal is for a number that is neither of the two, in the order of the conditions.
    have harity : ∀ body : ClassBody, (body.arity ≠ 0 ∧ body.arity ≠ (a :: rest).length) ↔
        ¬(body.arity = 0 ∨ body.arity = (a :: rest).length) := fun _ => not_or.symm
    simp only [List.isEmpty_cons, Bool.false_eq_true, if_false, Except.bind_eq_ok, body_eq_ok,
      harity, reduceCtorEq, false_and, false_or, ne_eq, not_false_eq_true, true_and]
    refine exists_congr fun body => and_congr_right fun _ => ?_
    split
    case isTrue hne =>
      constructor
      · intro h
        cases h
      · exact fun h => absurd h.1 hne
    case isFalse hne =>
      rw [not_not] at hne
      simp only [hne, true_and]
      exact ⟨fun h => (Except.ok.inj h).symm, fun h => congrArg _ h.symm⟩

end Operations

/-! ### Built graphs -/

/-- The graphs that can be built.  What is put above a class is a place of the graph. -/
inductive Built : TypeGraph → Prop where
  | prelude : Built .prelude
  | declareClass {g g' : TypeGraph} {name : String} {isAbstract : Bool} {id : TypeId} :
    Built g → g.declareClass name isAbstract = .ok (id, g') → Built g'
  | declareInterface {g g' : TypeGraph} {name : String} {id : TypeId} :
    Built g → g.declareInterface name = .ok (id, g') → Built g'
  | declareLibraryClass {g g' : TypeGraph} {name : String} {id : TypeId} :
    Built g → g.declareLibraryClass name = .ok (id, g') → Built g'
  | declareEnum {g g' : TypeGraph} {name : String} {variants : List String} {id : TypeId} :
    Built g → g.declareEnum name variants = .ok (id, g') → Built g'
  | setSuperclass {g g' : TypeGraph} {id above : TypeId} :
    Built g → above ∈ g.places → g.setSuperclass id above = .ok g' → Built g'
  | addInterface {g g' : TypeGraph} {id above : TypeId} :
    Built g → above ∈ g.places → g.addInterface id above = .ok g' → Built g'
  | setAbstract {g g' : TypeGraph} {id : TypeId} {isAbstract : Bool} :
    Built g → g.setAbstract id isAbstract = .ok g' → Built g'
  | addField {g g' : TypeGraph} {id : TypeId} {field : Field} :
    Built g → g.addField id field = .ok g' → Built g'
  | array {g : TypeGraph} (component : TypeId) : Built g → Built (g.array component).2
  | parameterized {g g' : TypeGraph} {raw id : TypeId} {arguments : List TypeId} :
    Built g → g.parameterized raw arguments = .ok (id, g') → Built g'

/-- What holds of every graph that can be built. -/
structure Consistent (g : TypeGraph) : Prop where
  /-- The types that every graph starts with are there. -/
  firstDeclared_le : TypeId.firstDeclared ≤ g.size
  /-- A place that is kept free holds a class of a library. -/
  reserved : ∀ id : TypeId, id.isReserved → ∃ body, g.classBody? id = some body ∧ body.isLibrary
  /-- What is above a class is a class or an interface. -/
  parents : ∀ id p, p ∈ (g.kind id).parents → p ∈ g.places ∧ (g.classBody? p).isSome
  /-- No two types that are declared share a name. -/
  name_inj : ∀ a b, a ∈ g.places → b ∈ g.places → a.isReserved = false → b.isReserved = false →
    (g.kind a).parts = [] → (g.kind b).parts = [] → g.name a = g.name b → a = b

/-- A name that is not found belongs to no type. -/
theorem name_ne_of_lookup?_eq_none {name : String} (h : g.lookup? name = none)
    (hid : id ∈ g.places) (hres : id.isReserved = false) : g.name id ≠ name := by
  intro hname
  unfold lookup? at h
  rw [List.find?_eq_none] at h
  have := h id (List.mem_reverse.2 hid)
  simp [hres, hname] at this

/-! ### Building keeps graphs consistent -/

/-- A new type leaves the bodies of the others as they are. -/
theorem classBody?_push_of_mem {t : TypeDescriptor} {parts : ∀ p ∈ t.kind.parts, p.index < g.size}
    (h : id ∈ g.places) : (g.push t parts).classBody? id = g.classBody? id := by
  rw [classBody?, classBody?, kind, kind, descriptor_push_of_mem h]

/-- A reserved place is a place of a consistent graph. -/
private theorem Consistent.mem_of_isReserved (hg : g.Consistent) (h : id.isReserved) :
    id ∈ g.places := by
  have hle : 32 ≤ g.size := hg.firstDeclared_le
  rw [TypeId.isReserved_eq_true] at h
  rw [mem_places]
  omega

/-- Putting a type at the next place, which names nothing above itself. -/
theorem Consistent.push (hg : g.Consistent) {t : TypeDescriptor}
    (parts : ∀ p ∈ t.kind.parts, p.index < g.size) (hparents : t.kind.parents = [])
    (hname : t.kind.parts = [] → g.lookup? t.name = none) : (g.push t parts).Consistent where
  firstDeclared_le := by
    have := hg.firstDeclared_le
    rw [size_push]
    omega
  reserved := by
    intro id hid
    rw [classBody?_push_of_mem (hg.mem_of_isReserved hid)]
    exact hg.reserved id hid
  parents := by
    intro id p hp
    -- The new type has no parents, so the place is an old one.
    have hold : id ∈ g.places ∧ p ∈ (g.kind id).parents := by
      by_cases hmem : id ∈ g.places
      · rw [kind, descriptor_push_of_mem hmem] at hp
        exact ⟨hmem, hp⟩
      · by_cases hnext : id = g.next
        · rw [hnext, kind, descriptor_push_next, hparents] at hp
          cases hp
        · rw [kind_of_not_mem fun h => (mem_places_push.1 h).elim hmem hnext] at hp
          cases hp
    -- The parent was in the graph and still is.
    have ⟨hmem, hsome⟩ := hg.parents id p hold.2
    rw [classBody?_push_of_mem hmem]
    exact ⟨mem_places_push.2 (Or.inl hmem), hsome⟩
  name_inj := by
    -- The new type is told apart from the others by its name, which was free.
    have hnew : ∀ a, a ∈ g.places → a.isReserved = false → t.kind.parts = [] →
        g.name a ≠ t.name := fun a ha hra hpt =>
      name_ne_of_lookup?_eq_none (hname hpt) ha hra
    intro a b ha hb hra hrb hpa hpb hab
    rcases mem_places_push.1 ha with ha | rfl <;> rcases mem_places_push.1 hb with hb | rfl
    -- Both were there before.
    · simp only [name, kind, descriptor_push_of_mem ha, descriptor_push_of_mem hb] at hpa hpb hab
      exact hg.name_inj a b ha hb hra hrb hpa hpb hab
    -- One of them is the new type.
    · simp only [name, kind, descriptor_push_of_mem ha, descriptor_push_next] at hpb hab
      exact absurd hab (hnew a ha hra hpb)
    · simp only [name, kind, descriptor_push_of_mem hb, descriptor_push_next] at hpa hab
      exact absurd hab.symm (hnew b hb hrb hpa)
    -- Both are the new type.
    · rfl

/-- Putting another body into a class, with classes of the graph above it. -/
theorem Consistent.setBody (hg : g.Consistent) {target : TypeId} {body : ClassBody}
    (hlibrary : ∀ b, g.classBody? target = some b → body.isLibrary = b.isLibrary)
    (hparents : ∀ p ∈ body.superclass.toList ++ body.interfaces,
      p ∈ g.places ∧ (g.classBody? p).isSome) : (g.setBody target body).Consistent where
  firstDeclared_le := by
    rw [size_setBody]
    exact hg.firstDeclared_le
  reserved := by
    intro id hid
    obtain ⟨b, hb, hlib⟩ := hg.reserved id hid
    have hsome : ((g.setBody target body).classBody? id).isSome := by
      rw [isSome_classBody?_setBody, hb]
      rfl
    obtain ⟨b', hb'⟩ := Option.isSome_iff_exists.1 hsome
    refine ⟨b', hb', ?_⟩
    -- The class of a library keeps its body, or gets one that is of a library as well.
    rcases classBody?_setBody hb' with h | ⟨rfl, _, rfl⟩
    · rw [hb, Option.some.injEq] at h
      rw [← h]
      exact hlib
    · rw [hlibrary b hb]
      exact hlib
  parents := by
    intro id p hp
    rw [mem_places_setBody, isSome_classBody?_setBody]
    cases hb : (g.setBody target body).classBody? id with
    | none =>
      rw [TypeKind.parents_eq_nil hb] at hp
      cases hp
    | some b =>
      rw [parents_eq hb] at hp
      -- Only the target has another body, and its parents are classes by assumption.
      rcases classBody?_setBody hb with h | ⟨_, _, rfl⟩
      · exact hg.parents id p (by rw [parents_eq h]; exact hp)
      · exact hparents p hp
  name_inj := by
    -- Neither names nor parts change with a body.
    intro a b ha hb hra hrb hpa hpb hab
    rw [mem_places_setBody] at ha hb
    rw [parts_setBody] at hpa hpb
    rw [name_setBody, name_setBody] at hab
    exact hg.name_inj a b ha hb hra hrb hpa hpb hab

/-- Declaring a type that names nothing above itself. -/
private theorem Consistent.declare (hg : g.Consistent) {t : TypeDescriptor} {parts}
    (hparents : t.kind.parents = []) (h : g.declare t parts = .ok (id, g')) : g'.Consistent := by
  obtain ⟨hname, -, rfl⟩ := declare_eq_ok.1 h
  exact hg.push _ hparents fun _ => hname

/-- Sharing a structural type. -/
theorem Consistent.intern (hg : g.Consistent) {t : TypeDescriptor} (hparts : t.kind.parts ≠ [])
    (hparents : t.kind.parents = []) : (g.intern t).2.Consistent :=
  intern_induction hg fun parts _ => hg.push parts hparents fun h => absurd h hparts

/-- What is above a class that has a body. -/
theorem Consistent.parents_of_body (hg : g.Consistent) {body : ClassBody}
    (h : g.classBody? id = some body) : ∀ p ∈ body.superclass.toList ++ body.interfaces,
      p ∈ g.places ∧ (g.classBody? p).isSome := by
  intro p hp
  exact hg.parents id p (by rw [parents_eq h]; exact hp)

/-- A new superclass keeps a graph consistent. -/
private theorem Consistent.setSuperclass (hg : g.Consistent) {above : TypeId}
    (hmem : above ∈ g.places) (h : g.setSuperclass id above = .ok g') : g'.Consistent := by
  obtain ⟨body, hbody, htop, -, rfl⟩ := setSuperclass_eq_ok.1 h
  refine hg.setBody (fun b hb => ?_) fun p hp => ?_
  · rw [hbody, Option.some.injEq] at hb
    rw [← hb]
  -- The parents are the new superclass and the interfaces that were there.
  · rcases List.mem_append.1 hp with hp | hp
    · rw [Option.mem_toList, Option.some.injEq] at hp
      rw [← hp]
      exact ⟨hmem, htop⟩
    · exact hg.parents_of_body hbody p (List.mem_append_right _ hp)

/-- A new interface keeps a graph consistent. -/
private theorem Consistent.addInterface (hg : g.Consistent) {above : TypeId}
    (hmem : above ∈ g.places) (h : g.addInterface id above = .ok g') : g'.Consistent := by
  obtain ⟨body, hbody, htop, rfl⟩ := addInterface_eq_ok.1 h
  refine hg.setBody (fun b hb => ?_) fun p hp => ?_
  · rw [hbody, Option.some.injEq] at hb
    rw [← hb]
  -- The parents are those that were there and the new interface.
  · simp only [List.mem_append, List.mem_singleton] at hp
    rcases hp with hp | hp | rfl
    · exact hg.parents_of_body hbody p (List.mem_append_left _ hp)
    · exact hg.parents_of_body hbody p (List.mem_append_right _ hp)
    · exact ⟨hmem, htop⟩

/-- A change that leaves the classes above a class as they are. -/
private theorem Consistent.setBody_same (hg : g.Consistent) {body body' : ClassBody}
    (hbody : g.classBody? id = some body) (hlibrary : body'.isLibrary = body.isLibrary)
    (hsuper : body'.superclass = body.superclass) (hinter : body'.interfaces = body.interfaces) :
    (g.setBody id body').Consistent := by
  refine hg.setBody (fun b hb => ?_) fun p hp => ?_
  · rw [hbody, Option.some.injEq] at hb
    rw [hlibrary, hb]
  · rw [hsuper, hinter] at hp
    exact hg.parents_of_body hbody p hp

/-- Making a class abstract keeps a graph consistent. -/
private theorem Consistent.setAbstract (hg : g.Consistent) {isAbstract : Bool}
    (h : g.setAbstract id isAbstract = .ok g') : g'.Consistent := by
  obtain ⟨body, hbody, rfl⟩ := setAbstract_eq_ok.1 h
  exact hg.setBody_same hbody rfl rfl rfl

/-- A new field keeps a graph consistent. -/
private theorem Consistent.addField (hg : g.Consistent) {field : Field}
    (h : g.addField id field = .ok g') : g'.Consistent := by
  obtain ⟨body, hbody, rfl⟩ := addField_eq_ok.1 h
  exact hg.setBody_same hbody rfl rfl rfl

/-- Forming an array keeps a graph consistent. -/
private theorem Consistent.array (hg : g.Consistent) (component : TypeId) :
    (g.array component).2.Consistent :=
  hg.intern (List.cons_ne_nil _ _) rfl

/-- Applying a class to arguments keeps a graph consistent. -/
private theorem Consistent.parameterized (hg : g.Consistent) {raw : TypeId}
    {arguments : List TypeId}
    (h : g.parameterized raw arguments = .ok (id, g')) : g'.Consistent := by
  -- Without arguments the graph is the same, and otherwise the type is shared or new.
  rcases parameterized_eq_ok.1 h with ⟨-, -, rfl⟩ | ⟨-, -, -, -, heq⟩
  · exact hg
  · rw [(Prod.mk.inj heq).2]
    exact hg.intern (List.cons_ne_nil _ _) rfl

/-! ### The first graph -/

private theorem prelude_parents : ∀ i < 32, (prelude.kind ⟨i⟩).parents = [] := by
  decide

/-- The reserved places of the prelude hold classes of a library. -/
private theorem prelude_reserved : ∀ i < 32, 28 ≤ i →
    (prelude.classBody? ⟨i⟩).any (·.isLibrary) = true := by
  decide

/-- The declared types of the prelude have different names. -/
private theorem prelude_names : ∀ i < 28, ∀ j < 28,
    prelude.name ⟨i⟩ = prelude.name ⟨j⟩ → i = j := by
  decide +kernel

/-- The graph at the start is consistent. -/
private theorem consistent_prelude : prelude.Consistent where
  firstDeclared_le := by decide
  reserved := by
    intro id hid
    -- The kinds of the reserved places are looked up, as are the parents and names of all places.
    have ⟨hlow, hhigh⟩ := TypeId.isReserved_eq_true.1 hid
    have h := prelude_reserved id.index hhigh hlow
    rw [Option.any_eq_true] at h
    exact h
  parents := by
    intro id p hp
    by_cases hlt : id.index < 32
    · rw [prelude_parents id.index hlt] at hp
      cases hp
    -- Behind the prelude there is no type yet.
    · rw [kind_of_not_mem fun h => hlt (mem_places.1 h)] at hp
      cases hp
  name_inj := by
    intro a b ha hb hra hrb _ _ hab
    have hsize : prelude.size = 32 := by decide
    rw [mem_places, hsize] at ha hb
    rw [TypeId.isReserved_eq_false] at hra hrb
    have := prelude_names a.index (by omega) b.index (by omega) hab
    exact congrArg TypeId.mk this

/-- A graph that can be built is consistent. -/
theorem Built.consistent (h : g.Built) : g.Consistent := by
  -- Each declaration keeps the graph consistent.
  induction h with
  | prelude => exact consistent_prelude
  | declareClass _ h ih => exact ih.declare rfl h
  | declareInterface _ h ih => exact ih.declare rfl h
  | declareLibraryClass _ h ih => exact ih.declare rfl h
  | declareEnum _ h ih => exact ih.declare rfl h
  | setSuperclass _ hmem h ih => exact ih.setSuperclass hmem h
  | addInterface _ hmem h ih => exact ih.addInterface hmem h
  | setAbstract _ h ih => exact ih.setAbstract h
  | addField _ h ih => exact ih.addField h
  | array component _ ih => exact ih.array component
  | parameterized _ h ih => exact ih.parameterized h

end TypeGraph

end GraphCodec
