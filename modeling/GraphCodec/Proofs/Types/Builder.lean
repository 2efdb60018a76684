import GraphCodec.Proofs.Types.Lineage
import GraphCodec.Proofs.Types.Terms

/-!
# Building with tables

A `Builder` is what is held while types are declared: the types one after another, a table of the
names that are taken, and a table of the structural types that are there.  The operations of
`Operation` read and change it one store after another, and an operation that is refused leaves
behind what it has changed by then.  The check of a new superclass climbs from class to class as
long as there is a next one; here it has a number of rounds, and a run that uses them up, or that
looks at a place where no type stands, has no outcome.

`Builder.of` is the builder of a type graph, and the operations do to it what they do to the graph
(`Builder.outcome_perform`).  So whatever is done to a builder, refused operations and new
superclasses for classes that have one included, its hierarchy stays sound and a refused operation
changes nothing (`Builder.sound_of_reached`).
-/

namespace GraphCodec

/-- What is held while types are declared. -/
structure Builder where
  types : Array TypeDescriptor
  /-- The place that each name belongs to, with what was entered last in front. -/
  names : List (String × TypeId)
  /-- The place of each structural type, with what was entered last in front. -/
  structural : List (TypeKind × TypeId)

/-- A step of building.  What it has changed by the time it is refused stays changed. -/
abbrev Building := ExceptT DeclarationError (StateT Builder Option)

namespace Building

variable {α β : Type}

/-- What comes of a step: what it yields, or why it is refused, and the builder after it. -/
def outcome (m : Building α) (b : Builder) : Option (Except DeclarationError α × Builder) :=
  m.run.run b

/-- A step that has no outcome. -/
def stop : Building α := ExceptT.mk fun _ => none

/-- The type at a place. -/
def descriptor (id : TypeId) : Building TypeDescriptor := do
  match (← get).types[id.index]? with
  | some t => return t
  | none => stop

/-- What a class or interface declares; other types are refused. -/
def body (id : TypeId) : Building ClassBody := do
  let t ← descriptor id
  match t.kind.classBody? with
  | some body => return body
  | none => throw (.notAClass t.name)

/-- Changes what a class or interface declares; other types are refused. -/
def changeBody (id : TypeId) (change : ClassBody → ClassBody) : Building Unit := do
  let body ← body id
  modify fun b => { b with
    types := b.types.modify id.index fun t => { t with kind := t.kind.withBody (change body) } }

/-- Puts a type at the next place, which its name then belongs to. -/
def push (t : TypeDescriptor) : Building TypeId := do
  let id : TypeId := ⟨(← get).types.size⟩
  modify fun b => { b with names := (t.name, id) :: b.names }
  modify fun b => { b with types := b.types.push t }
  return id

/-- Puts a type at the next place, unless its name is taken. -/
def declare (t : TypeDescriptor) : Building TypeId := do
  if ((← get).names.lookup t.name).isSome then throw (.duplicateType t.name) else push t

/-- Refuses a class that is met on the way up from a type, which is climbed in a number of
rounds. -/
def refuseAbove (id : TypeId) : Nat → Option TypeId → Building Unit
  | _, none => return
  | 0, some _ => stop
  | rounds + 1, some current => do
    if current = id then throw (.superclassCycle (← descriptor id).name)
    else refuseAbove id rounds ((← descriptor current).kind.classBody?.bind (·.superclass))

/-- Puts a class below a superclass.  No class may come to be above itself. -/
def setSuperclass (rounds : Nat) (id above : TypeId) : Building Unit := do
  let _ ← body above
  let _ ← body id
  refuseAbove id rounds (some above)
  changeBody id fun body => { body with superclass := some above }

/-- Puts a class below an interface. -/
def addInterface (id above : TypeId) : Building Unit := do
  let _ ← body above
  changeBody id fun body => { body with interfaces := body.interfaces ++ [above] }

/-- The place of a structural type, which is put there under its name if it is not there yet. -/
def intern (kind : TypeKind) (name : Building String) : Building TypeId := do
  match (← get).structural.lookup kind with
  | some id => return id
  | none =>
    let name ← name
    let id ← push ⟨name, kind⟩
    modify fun b => { b with structural := (kind, id) :: b.structural }
    return id

/-- The type of arrays of a component type. -/
def array (component : TypeId) : Building TypeId :=
  intern (.arrayType component) do
    return (← descriptor component).name ++ "[]"

/-- The names of types. -/
def names : List TypeId → Building (List String)
  | [] => return []
  | id :: ids => do
    let name := (← descriptor id).name
    return name :: (← names ids)

/-- A class or interface applied to type arguments.  Without arguments it stays as it is, also if
it has type parameters. -/
def parameterized (raw : TypeId) (arguments : List TypeId) : Building TypeId := do
  if arguments.isEmpty then return raw
  else
    let body ← body raw
    if body.arity ≠ 0 ∧ body.arity ≠ arguments.length then
      throw (.arityMismatch (← descriptor raw).name body.arity arguments.length)
    else
      intern (.parameterized raw arguments) do
        let names ← names arguments
        return (← descriptor raw).name ++ "<" ++ String.intercalate ", " names ++ ">"

end Building

/-- What can be asked of a builder. -/
inductive Operation where
  | declareClass (name : String) (isAbstract : Bool)
  | declareInterface (name : String)
  | declareLibraryClass (name : String)
  | declareEnum (name : String) (variants : List String)
  | setSuperclass (id above : TypeId)
  | addInterface (id above : TypeId)
  | setAbstract (id : TypeId) (isAbstract : Bool)
  | addField (id : TypeId) (field : Field)
  | array (component : TypeId)
  | parameterized (raw : TypeId) (arguments : List TypeId)

namespace Operation

/-- The places that an operation goes to. -/
def places : Operation → List TypeId
  | setSuperclass id above | addInterface id above => [id, above]
  | setAbstract id _ | addField id _ | array id => [id]
  | parameterized raw arguments => raw :: arguments
  | _ => []

/-- Carries out an operation, which yields a place if it is about a new or shared type. -/
def perform (rounds : Nat) : Operation → Building (Option TypeId)
  | declareClass name isAbstract =>
    some <$> Building.declare ⟨name, .classType (.declared isAbstract)⟩
  | declareInterface name => some <$> Building.declare ⟨name, .interfaceType (.declared true)⟩
  | declareLibraryClass name => some <$> Building.declare ⟨name, .classType (.library false 0)⟩
  | declareEnum name variants => some <$> Building.declare ⟨name, .enumType variants⟩
  | setSuperclass id above => (fun _ => none) <$> Building.setSuperclass rounds id above
  | addInterface id above => (fun _ => none) <$> Building.addInterface id above
  | setAbstract id isAbstract =>
    (fun _ => none) <$> Building.changeBody id fun body => { body with isAbstract := isAbstract }
  | addField id field =>
    (fun _ => none) <$> Building.changeBody id fun body =>
      { body with fields := body.fields ++ [field] }
  | array component => some <$> Building.array component
  | parameterized raw arguments => some <$> Building.parameterized raw arguments

/-- Carries out an operation on a graph. -/
def apply (g : TypeGraph) : Operation → Except DeclarationError (Option TypeId × TypeGraph)
  | declareClass name isAbstract =>
    (g.declareClass name isAbstract).map fun (id, g') => (some id, g')
  | declareInterface name => (g.declareInterface name).map fun (id, g') => (some id, g')
  | declareLibraryClass name => (g.declareLibraryClass name).map fun (id, g') => (some id, g')
  | declareEnum name variants => (g.declareEnum name variants).map fun (id, g') => (some id, g')
  | setSuperclass id above => (g.setSuperclass id above).map fun g' => (none, g')
  | addInterface id above => (g.addInterface id above).map fun g' => (none, g')
  | setAbstract id isAbstract => (g.setAbstract id isAbstract).map fun g' => (none, g')
  | addField id field => (g.addField id field).map fun g' => (none, g')
  | array component => .ok (some (g.array component).1, (g.array component).2)
  | parameterized raw arguments =>
    (g.parameterized raw arguments).map fun (id, g') => (some id, g')

section Apply

variable {g g' : TypeGraph} {found : Option TypeId}

/-- An operation that gives a place has given it together with the graph. -/
private theorem exists_place_of_map {r : Except DeclarationError (TypeId × TypeGraph)}
    (h : (r.map fun (id, g') => (some id, g')) = .ok (found, g')) : ∃ id, r = .ok (id, g') := by
  obtain ⟨⟨id, g₁⟩, hr, heq⟩ := Except.map_eq_ok.1 h
  cases heq
  exact ⟨id, hr⟩

/-- An operation that gives no place has given the graph alone. -/
private theorem eq_ok_of_map {r : Except DeclarationError TypeGraph}
    (h : (r.map fun g' => ((none : Option TypeId), g')) = .ok (found, g')) : r = .ok g' := by
  obtain ⟨g₁, hr, heq⟩ := Except.map_eq_ok.1 h
  cases heq
  exact hr

/-- A graph that can be built stays one. -/
theorem built_of_apply {op : Operation} (hg : g.Built) (hop : ∀ id ∈ op.places, id ∈ g.places)
    (h : op.apply g = .ok (found, g')) : g'.Built := by
  -- Every operation is one of the steps by which a graph is built.
  cases op with
  | declareClass name isAbstract =>
    obtain ⟨id, h⟩ := exists_place_of_map h
    exact .declareClass hg h
  | declareInterface name =>
    obtain ⟨id, h⟩ := exists_place_of_map h
    exact .declareInterface hg h
  | declareLibraryClass name =>
    obtain ⟨id, h⟩ := exists_place_of_map h
    exact .declareLibraryClass hg h
  | declareEnum name variants =>
    obtain ⟨id, h⟩ := exists_place_of_map h
    exact .declareEnum hg h
  | setSuperclass id above =>
    exact .setSuperclass hg (hop above (by simp [places])) (eq_ok_of_map h)
  | addInterface id above =>
    exact .addInterface hg (hop above (by simp [places])) (eq_ok_of_map h)
  | setAbstract id isAbstract => exact .setAbstract hg (eq_ok_of_map h)
  | addField id field => exact .addField hg (eq_ok_of_map h)
  | array component =>
    cases h
    exact .array component hg
  | parameterized raw arguments =>
    obtain ⟨id, h⟩ := exists_place_of_map h
    exact .parameterized hg h

end Apply

end Operation

/-! ### Outcomes -/

namespace Building

variable {α β : Type}

private theorem outcome_pure (a : α) (b : Builder) :
    (pure a : Building α).outcome b = some (.ok a, b) :=
  rfl

theorem outcome_get (b : Builder) : (get : Building Builder).outcome b = some (.ok b, b) := rfl

theorem outcome_modify (change : Builder → Builder) (b : Builder) :
    (modify change : Building Unit).outcome b = some (.ok (), change b) :=
  rfl

/-- A step after another one goes on where that one got to, if it was not refused. -/
theorem outcome_bind (m : Building α) (next : α → Building β) (b : Builder) :
    (m >>= next).outcome b = (m.outcome b).bind fun
      | (.ok a, b') => (next a).outcome b'
      | (.error e, b') => some (.error e, b') := by
  show ((m.run.run b).bind _ : Option _) = (m.run.run b).bind _
  -- Without an outcome of the first step there is none of both.
  cases m.run.run b with
  | none => rfl
  | some found =>
    obtain ⟨result, b'⟩ := found
    cases result <;> rfl

/-- A step after one that succeeds goes on where that one got to. -/
theorem outcome_bind_ok {m : Building α} {next : α → Building β} {b b' : Builder} {a : α}
    (h : m.outcome b = some (.ok a, b')) : (m >>= next).outcome b = (next a).outcome b' := by
  rw [outcome_bind, h]
  rfl

/-- What refuses the first step refuses both. -/
theorem outcome_bind_error {m : Building α} {next : α → Building β} {b b' : Builder}
    {e : DeclarationError} (h : m.outcome b = some (.error e, b')) :
    (m >>= next).outcome b = some (.error e, b') := by
  rw [outcome_bind, h]
  rfl

/-- The value of a run is mapped, and the builder stays what it was. -/
private theorem outcome_map (f : α → β) (m : Building α) (b : Builder) :
    (f <$> m).outcome b = (m.outcome b).map fun (result, b') => (result.map f, b') := by
  show ((m.run.run b).bind _ : Option _) = (m.run.run b).map _
  -- The two sides differ only in a value that a refusal does not have.
  cases m.run.run b with
  | none => rfl
  | some found =>
    obtain ⟨result, b'⟩ := found
    cases result <;> rfl

end Building

/-! ### The builder of a graph -/

namespace Builder

/-- The builder that holds the types that every graph starts with. -/
def start : Builder where
  types := TypeGraph.preludeTypes.toArray
  names := ((TypeGraph.preludeTypes.take TypeId.firstReserved).zipIdx.map fun (t, i) =>
    (t.name, .mk i)).reverse
  structural := []

open TypeGraph
open Building (outcome_pure outcome_get outcome_modify outcome_bind_ok outcome_bind_error
  outcome_map)

variable {α β : Type} {g g' : TypeGraph} {id above : TypeId}

/-- The builder that holds a type graph. -/
def of (g : TypeGraph) : Builder where
  types := g.types
  names := (g.places.reverse.filter fun id => !id.isReserved).map fun id => (g.name id, id)
  structural :=
    (g.places.reverse.filter fun id => !(g.kind id).parts.isEmpty).map fun id => (g.kind id, id)

/-- What comes of a step that does to a builder what is done to its graph. -/
def outcomeOf (g : TypeGraph) : Except DeclarationError (α × TypeGraph) →
    Option (Except DeclarationError α × Builder)
  | .ok (a, g') => some (.ok a, of g')
  | .error e => some (.error e, of g)

/-- The outcome on the graph is an error if the operation is refused, and then nothing has
changed. -/
private theorem outcomeOf_eq_error {r : Except DeclarationError (α × TypeGraph)}
    {e : DeclarationError}
    {b : Builder} : outcomeOf g r = some (.error e, b) ↔ r = .error e ∧ b = of g := by
  cases r with
  | error e' => simp [outcomeOf, eq_comm]
  | ok found => simp [outcomeOf]

/-- The value that a step gives is mapped on the graph as well. -/
private theorem outcome_map_of {m : Building α} {r : Except DeclarationError (α × TypeGraph)}
    (h : m.outcome (of g) = outcomeOf g r) (f : α → β) :
    (f <$> m).outcome (of g) = outcomeOf g (r.map fun (a, g') => (f a, g')) := by
  rw [outcome_map, h]
  cases r <;> rfl

/-- A step without a value can be given one on the graph as well. -/
private theorem outcome_map_of_graph {m : Building Unit} {r : Except DeclarationError TypeGraph}
    (h : m.outcome (of g) = outcomeOf g (r.map fun g' => ((), g'))) (a : α) :
    ((fun _ => a) <$> m).outcome (of g) = outcomeOf g (r.map fun g' => (a, g')) := by
  rw [outcome_map_of h, Except.map_map]

/-- Looking a key up in a table finds the first place that has it. -/
theorem lookup_table {κ : Type} [BEq κ] [LawfulBEq κ] (key : TypeId → κ) (listed : TypeId → Bool)
    (ids : List TypeId) (k : κ) : ((ids.filter listed).map fun id => (key id, id)).lookup k =
      ids.find? fun id => listed id && key id == k := by
  -- Only the entries that are listed are in the table.
  induction ids with
  | nil => rfl
  | cons id ids ih =>
    rw [List.filter_cons, List.find?_cons]
    cases hlisted : listed id with
    | false => simpa using ih
    | true =>
      rw [if_pos rfl, List.map_cons, List.lookup_cons, ih, BEq.comm, Bool.true_and]

/-- The table of names finds the types that can be found by their names. -/
private theorem lookup_names (name : String) : (of g).names.lookup name = g.lookup? name :=
  lookup_table g.name _ _ _

/-- The table of structural types finds the place of a type, because they are shared. -/
private theorem lookup_structural (hg : g.Shared) {kind : TypeKind} (hkind : kind.parts ≠ []) :
    (of g).structural.lookup kind = g.places.find? fun id => g.kind id = kind := by
  -- The table has the last place of a kind and the graph the first; sharing makes them one.
  have hlast : (of g).structural.lookup kind =
      g.places.reverse.find? fun id => g.kind id = kind := by
    refine (lookup_table g.kind _ _ _).trans ?_
    refine congrArg (g.places.reverse.find? ·) (funext fun id => ?_)
    by_cases h : g.kind id = kind
    · simp [h, hkind]
    · simp [h]
  have hkindOf : ∀ {ids : List TypeId} {id : TypeId},
      (ids.find? fun id => g.kind id = kind) = some id → g.kind id = kind := fun h => by
    simpa using List.find?_some h
  rw [hlast]
  -- Without such a type neither search finds one, and with one both do.
  cases hfound : g.places.find? fun id => g.kind id = kind with
  | none =>
    rw [List.find?_eq_none] at hfound ⊢
    exact fun id hid => hfound id (List.mem_reverse.1 hid)
  | some id =>
    -- The type that is found last has the same kind, so it is the one that is found first.
    have hid := hkindOf hfound
    have hmem := List.mem_of_find?_eq_some hfound
    obtain ⟨id', hid'⟩ : ∃ id', (g.places.reverse.find? fun id => g.kind id = kind) = some id' :=
      Option.isSome_iff_exists.1
        (List.find?_isSome.2 ⟨id, List.mem_reverse.2 hmem, decide_eq_true hid⟩)
    have hkind' := hkindOf hid'
    rw [hid', hg.unique id' id (List.mem_reverse.1 (List.mem_of_find?_eq_some hid')) hmem
      (hkind'.symm ▸ hkind) (hkind'.trans hid.symm)]

/-! ### What changes do to the tables -/

section Push

variable {t : TypeDescriptor} {parts : ∀ p ∈ t.kind.parts, p.index < g.size}

/-- A new type takes the place behind all others. -/
private theorem places_push : (g.push t parts).places = g.places ++ [g.next] := by
  rw [places, size_push, List.range_succ, List.map_append]
  rfl

/-- What is listed by a key gets a new entry in front where the new type is listed. -/
theorem table_push {κ : Type} {key key' : TypeId → κ} {listed listed' : TypeId → Bool}
    (hlisted : ∀ id ∈ g.places, listed' id = listed id)
    (hkey : ∀ id ∈ g.places, key' id = key id) :
    ((g.push t parts).places.reverse.filter listed').map (fun id => (key' id, id)) =
      (if listed' g.next then [(key' g.next, g.next)] else []) ++
        (g.places.reverse.filter listed).map fun id => (key id, id) := by
  -- The entries of the old types stay.
  have hold : (g.places.reverse.filter listed').map (fun id => (key' id, id)) =
      (g.places.reverse.filter listed).map fun id => (key id, id) := by
    rw [List.filter_congr fun id hid => hlisted id (List.mem_reverse.1 hid)]
    refine List.map_congr_left fun id hid => ?_
    rw [hkey id (List.mem_reverse.1 (List.mem_of_mem_filter hid))]
  rw [places_push, List.reverse_append, List.reverse_singleton, List.singleton_append,
    List.filter_cons]
  split
  · rw [List.map_cons, hold]
    rfl
  · exact hold

/-- A new type enters its name at the front of the table of names. -/
private theorem names_push (hg : g.Consistent) :
    (of (g.push t parts)).names = (t.name, g.next) :: (of g).names := by
  -- The new place is behind the reserved ones, so its name is listed.
  have hnext : g.next.isReserved = false :=
    TypeId.isReserved_eq_false.2 (Or.inr hg.firstDeclared_le)
  refine (table_push (fun _ _ => rfl) fun id hid => name_push_of_mem hid).trans ?_
  rw [hnext, name, descriptor_push_next]
  rfl

/-- A new type enters its kind at the front of the table of structural types, if it is made of
parts. -/
private theorem structural_push : (of (g.push t parts)).structural =
    (if t.kind.parts.isEmpty then [] else [(t.kind, g.next)]) ++ (of g).structural := by
  -- For the old types nothing changes.
  have hlisted : ∀ id ∈ g.places,
      (!((g.push t parts).kind id).parts.isEmpty) = !(g.kind id).parts.isEmpty := fun id hid => by
    rw [kind_push_of_mem hid]
  refine (table_push hlisted fun id hid => kind_push_of_mem hid).trans ?_
  · rw [kind_push_next]
    cases t.kind.parts.isEmpty <;> rfl

end Push

/-- Changing what a class declares leaves the tables as they are. -/
private theorem of_setBody {body : ClassBody} : of (g.setBody id body) =
    ⟨(g.setBody id body).types, (of g).names, (of g).structural⟩ := by
  -- A body is changed in its place, so the places, names and parts stay.
  have hplaces : (g.setBody id body).places = g.places := by
    rw [places, places, size_setBody]
  have hnames : (of (g.setBody id body)).names = (of g).names := by
    simp only [of, hplaces, name_setBody]
  have hstructural : (of (g.setBody id body)).structural = (of g).structural := by
    simp only [of, hplaces, parts_setBody]
    refine List.map_congr_left fun id hid => ?_
    have hparts : (g.kind id).parts ≠ [] := by simpa using List.of_mem_filter hid
    rw [kind_setBody_of_parts hparts]
  rw [← hnames, ← hstructural]
  rfl

/-! ### What the steps do -/

/-- The descriptor of a type is found in its place. -/
theorem outcome_descriptor (h : id ∈ g.places) :
    (Building.descriptor id).outcome (of g) = some (.ok (g.descriptor id), of g) := by
  obtain ⟨t, ht⟩ : ∃ t, g.types[id.index]? = some t :=
    ⟨_, Array.getElem?_eq_getElem (mem_places.1 h)⟩
  rw [Building.descriptor, outcome_bind_ok (outcome_get _)]
  simp only [of, ht, TypeGraph.descriptor]
  rfl

/-- The body of a class is found in its place, and its absence is refused as on the graph. -/
theorem outcome_body (h : id ∈ g.places) :
    (Building.body id).outcome (of g) = some (g.body id, of g) := by
  rw [Building.body, outcome_bind_ok (outcome_descriptor h), TypeGraph.body, classBody?, kind, name]
  cases (g.descriptor id).kind.classBody? <;> rfl

/-- Changing the body of a class does what it does on the graph, where the type is a class. -/
theorem outcome_changeBody (h : id ∈ g.places) (change : ClassBody → ClassBody) :
    (Building.changeBody id change).outcome (of g) =
      outcomeOf g ((g.body id).map fun body => ((), g.setBody id (change body))) := by
  have hbody := outcome_body h
  rw [Building.changeBody]
  -- A type without a body is refused before anything is changed.
  cases hb : g.body id with
  | error e =>
    rw [hb] at hbody
    rw [outcome_bind_error hbody]
    rfl
  | ok body =>
    rw [hb] at hbody
    rw [outcome_bind_ok hbody, outcome_modify, Except.map, outcomeOf, of_setBody]
    rfl

/-- The names of several types are found one after the other. -/
private theorem outcome_names {ids : List TypeId} (h : ∀ id ∈ ids, id ∈ g.places) :
    (Building.names ids).outcome (of g) = some (.ok (ids.map g.name), of g) := by
  induction ids with
  | nil => rfl
  | cons id ids ih =>
    rw [Building.names, outcome_bind_ok (outcome_descriptor (h id List.mem_cons_self)),
      outcome_bind_ok (ih fun i hi => h i (List.mem_cons_of_mem _ hi))]
    rfl

/-- A type is put into the next place and its name into the table of names. -/
private theorem outcome_push (hg : g.Consistent) {t : TypeDescriptor}
    (parts : ∀ p ∈ t.kind.parts, p.index < g.size) : (Building.push t).outcome (of g) =
      some (.ok g.next, ⟨(g.push t parts).types, (of (g.push t parts)).names,
        (of g).structural⟩) := by
  rw [Building.push, outcome_bind_ok (outcome_get _), outcome_bind_ok (outcome_modify _ _),
    outcome_bind_ok (outcome_modify _ _), outcome_pure, names_push hg]
  rfl

/-- A type without parts is declared as on the graph, unless its name is taken. -/
private theorem outcome_declare (hg : g.Consistent) {t : TypeDescriptor}
    (parts : t.kind.parts = []) :
    (Building.declare t).outcome (of g) = outcomeOf g (g.declare t parts) := by
  have hparts : ∀ p ∈ t.kind.parts, p.index < g.size := by simp [parts]
  rw [Building.declare, outcome_bind_ok (outcome_get _), lookup_names, TypeGraph.declare]
  -- A taken name is refused by both.
  cases g.lookup? t.name with
  | some other => rfl
  | none =>
    -- A type without parts does not enter the table of structural types.
    have hstructural : (of (g.push t hparts)).structural = (of g).structural := by
      rw [structural_push, parts]
      rfl
    show (Building.push t).outcome (of g) = some (.ok g.next, of (g.push t hparts))
    rw [outcome_push hg hparts, ← hstructural]
    rfl

/-- The climb from a class ends within as many rounds as there are types, because no class is above
itself. -/
theorem outcome_refuseAbove (ha : g.Acyclic) (hg : g.Consistent) (hid : id ∈ g.places)
    (habove : above ∈ g.places) {rounds : Nat} (h : g.height above < rounds) :
    (Building.refuseAbove id rounds (some above)).outcome (of g) =
      some (if id = above ∨ id ∈ g.ancestors above then .error (.superclassCycle (g.name id))
        else .ok (), of g) := by
  -- The class above is lower, so the rounds that are left suffice for it.
  induction rounds generalizing above with
  | zero => omega
  | succ rounds ih =>
    rw [Building.refuseAbove]
    -- The climb ends where it meets the class below.
    by_cases heq : above = id
    · rw [if_pos heq, outcome_bind_ok (outcome_descriptor hid), if_pos (Or.inl heq.symm)]
      rfl
    · rw [if_neg heq, outcome_bind_ok (outcome_descriptor habove)]
      show (Building.refuseAbove id rounds (g.superclass? above)).outcome (of g) = _
      cases hs : g.superclass? above with
      -- It ends as well at a class without a superclass.
      | none =>
        rw [ancestors_eq_nil hs, if_neg (by simp [Ne.symm heq])]
        cases rounds <;> rfl
      -- Otherwise it goes on with the superclass, which has one ancestor less.
      | some next =>
        have hlt := ha.height_lt hg hs
        rw [ih (hg.below hs).1 (by omega), ha.ancestors_eq hg hs]
        simp [Ne.symm heq]

/-- A superclass is set as on the graph, with its refusals in the same order. -/
private theorem outcome_setSuperclass (hg : g.Built) (hid : id ∈ g.places)
    (habove : above ∈ g.places) {rounds : Nat} (h : g.size < rounds) :
    (Building.setSuperclass rounds id above).outcome (of g) =
      outcomeOf g ((g.setSuperclass id above).map fun g' => ((), g')) := by
  have hheight : g.height above < rounds := Nat.lt_of_le_of_lt (g.height_le_size above) h
  have hclimb := outcome_refuseAbove hg.acyclic hg.consistent hid habove hheight
  have htop := outcome_body habove
  have hbody := outcome_body hid
  -- Both do the same checks in the same order, so the first that fails is the same.
  rw [Building.setSuperclass, TypeGraph.setSuperclass]
  cases ht : g.body above with
  | error e =>
    rw [ht] at htop
    rw [outcome_bind_error htop]
    rfl
  | ok top =>
    rw [ht] at htop
    rw [outcome_bind_ok htop]
    cases hb : g.body id with
    | error e =>
      rw [hb] at hbody
      rw [outcome_bind_error hbody]
      rfl
    | ok body =>
      have hchange := outcome_changeBody hid fun body => { body with superclass := some above }
      rw [hb] at hbody hchange
      rw [outcome_bind_ok hbody]
      -- The last check is that of the climb.
      by_cases hfree : id = above ∨ id ∈ g.ancestors above
      · rw [if_pos hfree] at hclimb
        rw [outcome_bind_error hclimb]
        simp only [bind, Except.bind, if_pos hfree]
        rfl
      · rw [if_neg hfree] at hclimb
        rw [outcome_bind_ok hclimb, hchange]
        simp only [bind, Except.bind, if_neg hfree]
        rfl

/-- A class is made abstract as on the graph. -/
private theorem outcome_setAbstract (h : id ∈ g.places) {isAbstract : Bool} :
    (Building.changeBody id fun body => { body with isAbstract := isAbstract }).outcome (of g) =
      outcomeOf g ((g.setAbstract id isAbstract).map fun g' => ((), g')) := by
  rw [outcome_changeBody h, TypeGraph.setAbstract]
  cases g.body id <;> rfl

/-- A field is added as on the graph. -/
private theorem outcome_addField (h : id ∈ g.places) {field : Field} :
    (Building.changeBody id fun body => { body with fields := body.fields ++ [field] }).outcome
      (of g) = outcomeOf g ((g.addField id field).map fun g' => ((), g')) := by
  rw [outcome_changeBody h, TypeGraph.addField]
  cases g.body id <;> rfl

/-- An interface is added as on the graph. -/
private theorem outcome_addInterface (hid : id ∈ g.places) (habove : above ∈ g.places) :
    (Building.addInterface id above).outcome (of g) =
      outcomeOf g ((g.addInterface id above).map fun g' => ((), g')) := by
  have htop := outcome_body habove
  rw [Building.addInterface, TypeGraph.addInterface]
  -- The type above is checked before the class is changed.
  cases ht : g.body above with
  | error e =>
    rw [ht] at htop
    rw [outcome_bind_error htop]
    rfl
  | ok top =>
    rw [ht] at htop
    rw [outcome_bind_ok htop, outcome_changeBody hid]
    cases g.body id <;> rfl

/-- A type with parts is looked up and, where it is missing, put in as on the graph. -/
private theorem outcome_intern (hg : g.Built) {kind : TypeKind} {name : String}
    {naming : Building String} (hkind : kind.parts ≠ []) (hmem : ∀ p ∈ kind.parts, p ∈ g.places)
    (hname : naming.outcome (of g) = some (.ok name, of g)) :
    (Building.intern kind naming).outcome (of g) = outcomeOf g (.ok (g.intern ⟨name, kind⟩)) := by
  have hparts : ∀ p ∈ kind.parts, p.index < g.size := fun p hp => mem_places.1 (hmem p hp)
  rw [Building.intern, outcome_bind_ok (outcome_get _), lookup_structural hg.shared hkind,
    TypeGraph.intern]
  show (match g.places.find? fun id => g.kind id = kind with
    | some id => _ | none => _ : Building TypeId).outcome _ = _
  -- A type that is there already is shared.
  cases g.places.find? fun id => g.kind id = kind with
  | some id => rfl
  | none =>
    -- A new one enters the table under its kind.
    have hstructural : (of (g.push ⟨name, kind⟩ hparts)).structural =
        (kind, g.next) :: (of g).structural := by
      rw [structural_push, if_neg fun h => hkind (List.isEmpty_iff.1 h)]
      rfl
    rw [dif_pos hparts, outcomeOf, outcome_bind_ok hname,
      outcome_bind_ok (outcome_push hg.consistent hparts), outcome_bind_ok (outcome_modify _ _),
      outcome_pure, ← hstructural]
    rfl

/-- An array is formed as on the graph. -/
private theorem outcome_array (hg : g.Built) (h : id ∈ g.places) :
    (Building.array id).outcome (of g) = outcomeOf g (.ok (g.array id)) := by
  -- Its only part is the component, and its name is made of that of the component.
  refine outcome_intern hg (List.cons_ne_nil _ _) (fun p hp => ?_) ?_
  · rw [List.mem_singleton.1 hp]
    exact h
  · rw [outcome_bind_ok (outcome_descriptor h)]
    rfl

/-- Arguments are given to a class as on the graph, with its refusals in the same order. -/
private theorem outcome_parameterized (hg : g.Built) {raw : TypeId} {arguments : List TypeId}
    (hraw : raw ∈ g.places) (harguments : ∀ a ∈ arguments, a ∈ g.places) :
    (Building.parameterized raw arguments).outcome (of g) =
      outcomeOf g (g.parameterized raw arguments) := by
  have hbody := outcome_body hraw
  rw [Building.parameterized, TypeGraph.parameterized]
  -- A list without arguments is refused at once.
  split
  case isTrue => rfl
  case isFalse hne =>
    -- So is a type that is no class.
    cases hb : g.body raw with
    | error e =>
      rw [hb] at hbody
      rw [outcome_bind_error hbody]
      rfl
    | ok body =>
      rw [hb] at hbody
      rw [outcome_bind_ok hbody]
      simp only [bind, Except.bind]
      -- So is a wrong number of arguments.
      split
      case isTrue harity =>
        exact outcome_bind_ok (outcome_descriptor hraw)
      case isFalse harity =>
        -- The right number of arguments: it is looked up and put in as any structural type.
        refine outcome_intern hg (List.cons_ne_nil _ _)
          (List.forall_mem_cons.2 ⟨hraw, harguments⟩) ?_
        refine (outcome_bind_ok (outcome_names harguments)).trans ?_
        exact outcome_bind_ok (outcome_descriptor hraw)

/-- An operation on places of a graph that can be built does to its builder what it does to the
graph, as soon as there are more rounds than types. -/
theorem outcome_perform (hg : g.Built) {op : Operation} (hop : ∀ id ∈ op.places, id ∈ g.places)
    {rounds : Nat} (h : g.size < rounds) :
    (op.perform rounds).outcome (of g) = outcomeOf g (op.apply g) := by
  -- Each operation in turn: its outcome is that of the step on the graph, with the place given back
  -- or left out.
  cases op with
  | declareClass name isAbstract => exact outcome_map_of (outcome_declare hg.consistent rfl) _
  | declareInterface name => exact outcome_map_of (outcome_declare hg.consistent rfl) _
  | declareLibraryClass name => exact outcome_map_of (outcome_declare hg.consistent rfl) _
  | declareEnum name variants => exact outcome_map_of (outcome_declare hg.consistent rfl) _
  | setSuperclass id above =>
    exact outcome_map_of_graph (outcome_setSuperclass hg (hop _ (by simp [Operation.places]))
      (hop _ (by simp [Operation.places])) h) _
  | addInterface id above =>
    exact outcome_map_of_graph (outcome_addInterface (hop _ (by simp [Operation.places]))
      (hop _ (by simp [Operation.places]))) _
  | setAbstract id isAbstract =>
    exact outcome_map_of_graph (outcome_setAbstract (hop _ List.mem_cons_self)) _
  | addField id field => exact outcome_map_of_graph (outcome_addField (hop _ List.mem_cons_self)) _
  | array component => exact outcome_map_of (outcome_array hg (hop _ List.mem_cons_self)) _
  | parameterized raw arguments =>
    exact outcome_map_of (outcome_parameterized hg (hop _ List.mem_cons_self)
      fun a ha => hop a (List.mem_cons_of_mem _ ha)) _

end Builder

/-! ### More rounds -/

namespace Building

variable {α β : Type}

/-- Whether a step has the outcomes of another one wherever that one has an outcome. -/
def Continues (m' m : Building α) : Prop :=
  ∀ b found, m.outcome b = some found → m'.outcome b = some found

private theorem Continues.refl (m : Building α) : m.Continues m := fun _ _ h => h

/-- Two steps one after the other have the outcomes of two others, if each has those of its
counterpart. -/
private theorem Continues.bind {m m' : Building α} {next next' : α → Building β}
    (h : m'.Continues m)
    (hnext : ∀ a, (next' a).Continues (next a)) : (m' >>= next').Continues (m >>= next) := by
  -- An outcome of both is one of the first and, where that succeeds, one of the second.
  intro b found hfound
  rw [outcome_bind] at hfound ⊢
  obtain ⟨⟨result, b'⟩, hm, hrest⟩ := Option.bind_eq_some_iff.1 hfound
  rw [h b _ hm]
  cases result with
  | error e => exact hrest
  | ok a => exact hnext a b' found hrest

/-- A climb that has ended ends the same way with more rounds. -/
-- The induction is on the smaller number of rounds, with the class that is looked at general.
private theorem continues_refuseAbove {id : TypeId} {n m : Nat} (h : n ≤ m)
    (current : Option TypeId) :
    (refuseAbove id m current).Continues (refuseAbove id n current) := by
  induction n generalizing m current with
  -- Without rounds there is an outcome only at the top.
  | zero =>
    intro b found hfound
    cases current with
    | none =>
      rw [← hfound]
      cases m <;> rfl
    | some current => cases hfound
  | succ n ih =>
    obtain ⟨m, rfl⟩ : ∃ k, m = k + 1 := ⟨m - 1, by omega⟩
    cases current with
    | none => exact .refl _
    | some current =>
      rw [refuseAbove, refuseAbove]
      split
      case isTrue => exact .refl _
      case isFalse => exact .bind (.refl _) fun t => ih (Nat.le_of_succ_le_succ h) _

/-- With more rounds an operation has the same outcome, if it had one. -/
private theorem continues_perform {n m : Nat} (h : n ≤ m) (op : Operation) :
    (op.perform m).Continues (op.perform n) := by
  -- Only a new superclass takes rounds, for its climb.
  cases op with
  | setSuperclass id above =>
    have hclimb : (setSuperclass m id above).Continues (setSuperclass n id above) :=
      .bind (.refl _) fun _ => .bind (.refl _) fun _ =>
        .bind (continues_refuseAbove h _) fun _ => .refl _
    exact .bind hclimb fun _ => .refl _
  | _ => exact .refl _

end Building

/-! ### Sound builders -/

namespace Builder

open TypeGraph

variable {g : TypeGraph} {b b' : Builder} {id above : TypeId}

/-- Whether a place is one of the builder. -/
def Has (b : Builder) (id : TypeId) : Prop := id.index < b.types.size

instance (b : Builder) (id : TypeId) : Decidable (b.Has id) := inferInstanceAs (Decidable (_ < _))

/-- The sort of the type at a place. -/
def kind? (b : Builder) (id : TypeId) : Option TypeKind := b.types[id.index]?.map (·.kind)

/-- What a class or interface declares. -/
def body? (b : Builder) (id : TypeId) : Option ClassBody := (b.kind? id).bind (·.classBody?)

/-- The superclasses of a type, nearest first, up to one that has none. -/
inductive Superclasses (b : Builder) : TypeId → List TypeId → Prop where
  | top {id : TypeId} : (b.body? id).bind (·.superclass) = none → b.Superclasses id []
  | up {id above : TypeId} {ids : List TypeId} : (b.body? id).bind (·.superclass) = some above →
    b.Superclasses above ids → b.Superclasses id (above :: ids)

/-- The builders that any number of operations on places of the builder lead to, whether they are
refused or not. -/
inductive Reached : Builder → Prop where
  | start : Reached start
  | step {b b' : Builder} {result : Except DeclarationError (Option TypeId)} (op : Operation)
    (rounds : Nat) : Reached b → (∀ id ∈ op.places, b.Has id) →
      (op.perform rounds).outcome b = some (result, b') → Reached b'

/-- What holds of a builder at all times. -/
structure Sound (b : Builder) : Prop where
  /-- The superclasses of a type come to an end. -/
  superclasses : ∀ id, b.Has id → ∃ ids, b.Superclasses id ids
  /-- A structural type is made of types at smaller places. -/
  parts_lt : ∀ id kind, b.kind? id = some kind → ∀ p ∈ kind.parts, p.index < id.index
  /-- No two types are arrays of the same type. -/
  array_unique : ∀ id id' component, b.kind? id = some (.arrayType component) →
    b.kind? id' = some (.arrayType component) → id = id'
  /-- No two types are the same application. -/
  parameterized_unique : ∀ id id' raw arguments, b.kind? id = some (.parameterized raw arguments) →
    b.kind? id' = some (.parameterized raw arguments) → id = id'
  /-- The climb that looks for a cycle ends, and changes nothing. -/
  climb : ∀ id above, b.Has id → b.Has above → ∃ result, ∀ rounds > b.types.size,
    (Building.refuseAbove id rounds (some above)).outcome b = some (result, b)
  /-- A superclass is refused for a cycle exactly when it is the class or below it. -/
  cycle : ∀ id above, b.Has id → b.Has above → ∀ rounds > b.types.size,
    ((∃ name b', ((Operation.setSuperclass id above).perform rounds).outcome b =
        some (.error (.superclassCycle name), b')) ↔
      (b.body? id).isSome ∧ (b.body? above).isSome ∧
        ∃ ids, b.Superclasses above ids ∧ id ∈ above :: ids)
  /-- Every operation has an outcome, and changes nothing if it is refused. -/
  atomic : ∀ op : Operation, (∀ id ∈ op.places, b.Has id) → ∃ result b',
    (∀ rounds > b.types.size, (op.perform rounds).outcome b = some (result, b')) ∧
      ∀ e, result = .error e → b' = b

/-! ### Builders of graphs are sound -/

/-- The builder at the start is that of the prelude. -/
private theorem start_eq : start = of .prelude := by
  -- The prelude has no structural types, and its names are listed alike.
  have hnames : start.names = (of .prelude).names := by decide +kernel
  have hstructural : (of .prelude).structural = [] := by decide +kernel
  calc start = ⟨start.types, start.names, []⟩ := rfl
    _ = of .prelude := by rw [hnames, ← hstructural]; rfl

private theorem has_of : (of g).Has id ↔ id ∈ g.places := mem_places.symm

/-- A builder says of a place what the graph says, where a type stands there. -/
private theorem kind?_of : (of g).kind? id = if id ∈ g.places then some (g.kind id) else none := by
  rw [kind?, kind, descriptor, of]
  split
  case isTrue h => rw [Array.getElem?_eq_getElem (mem_places.1 h)]; rfl
  case isFalse h =>
    rw [mem_places, Nat.not_lt] at h
    rw [Array.getElem?_eq_none h]
    rfl

/-- A kind is found in the places of the graph that have it. -/
private theorem kind?_of_eq_some {kind : TypeKind} :
    (of g).kind? id = some kind ↔ id ∈ g.places ∧ g.kind id = kind := by
  rw [kind?_of]
  split
  case isTrue h => simp [h]
  case isFalse h => simp [h]

/-- The bodies that a builder finds are those of the graph. -/
private theorem body?_of (h : id ∈ g.places) : (of g).body? id = g.classBody? id := by
  rw [body?, kind?_of, if_pos h]
  rfl

/-- A class has only one chain of superclasses. -/
private theorem Superclasses.unique {ids ids' : List TypeId} (h : b.Superclasses id ids)
    (h' : b.Superclasses id ids') : ids = ids' := by
  -- The chains end together, since a class has a superclass or none.
  induction h generalizing ids' with
  | top hnone =>
    cases h' with
    | top => rfl
    | up hsome => rw [hnone] at hsome; cases hsome
  | up hsome _ ih =>
    cases h' with
    | top hnone => rw [hnone] at hsome; cases hsome
    | up hsome' hrest =>
      rw [hsome, Option.some.injEq] at hsome'
      subst hsome'
      rw [ih hrest]

/-- In the builder of a graph the superclasses of a type are those that the graph says. -/
private theorem superclasses_of (hg : g.Built) (h : id ∈ g.places) :
    (of g).Superclasses id (g.ancestors id) := by
  -- Up the acyclic chain, from the top.
  induction id using hg.acyclic.induction hg.consistent with
  | top id hs =>
    rw [ancestors_eq_nil hs]
    exact .top (by rw [body?_of h]; exact hs)
  | step id above hs ih =>
    rw [hg.ancestors_eq hs]
    exact .up (by rw [body?_of h]; exact hs) (ih (hg.consistent.below hs).1)

/-- A superclass is refused for a cycle where the other checks have passed. -/
private theorem setSuperclass_eq_cycle {name : String} :
    g.setSuperclass id above = .error (.superclassCycle name) ↔ (g.classBody? id).isSome ∧
      (g.classBody? above).isSome ∧ (id = above ∨ id ∈ g.ancestors above) ∧ name = g.name id := by
  rw [TypeGraph.setSuperclass, TypeGraph.body, TypeGraph.body]
  -- The other checks fail for a type that is no class.
  cases g.classBody? above with
  | none => simp [bind, Except.bind]
  | some top =>
    cases g.classBody? id with
    | none => simp [bind, Except.bind]
    | some body =>
      simp only [bind, Except.bind]
      split
      case isTrue h => simp [h, eq_comm]
      case isFalse h => simp [h, pure, Except.pure]

/-- The builder of a graph that can be built is sound. -/
theorem sound_of (hg : g.Built) : (of g).Sound where
  superclasses := fun id hid => ⟨_, superclasses_of hg (has_of.1 hid)⟩
  -- A part stands in a lower place than what is made of it.
  parts_lt := by
    intro id kind hkind p hp
    rw [← (kind?_of_eq_some.1 hkind).2] at hp
    exact index_lt_of_mem_parts hp
  -- Equal kinds stand in one place, because structural types are shared.
  array_unique := by
    intro id id' component h h'
    obtain ⟨hid, hkind⟩ := kind?_of_eq_some.1 h
    obtain ⟨hid', hkind'⟩ := kind?_of_eq_some.1 h'
    exact hg.shared.unique id id' hid hid' (by simp [hkind, TypeKind.parts]) (by rw [hkind, hkind'])
  parameterized_unique := by
    intro id id' raw arguments h h'
    obtain ⟨hid, hkind⟩ := kind?_of_eq_some.1 h
    obtain ⟨hid', hkind'⟩ := kind?_of_eq_some.1 h'
    exact hg.shared.unique id id' hid hid' (by simp [hkind, TypeKind.parts]) (by rw [hkind, hkind'])
  climb := by
    intro id above hid habove
    -- There are more rounds than the height of the class above.
    exact ⟨_, fun rounds hrounds => outcome_refuseAbove hg.acyclic hg.consistent (has_of.1 hid)
      (has_of.1 habove) (Nat.lt_of_le_of_lt (g.height_le_size above) hrounds)⟩
  cycle := by
    intro id above hid habove rounds hrounds
    rw [has_of] at hid habove
    have hop : ∀ i ∈ (Operation.setSuperclass id above).places, i ∈ g.places := by
      simp [Operation.places, hid, habove]
    have hchain : (∃ ids, (of g).Superclasses above ids ∧ id ∈ above :: ids) ↔
        id = above ∨ id ∈ g.ancestors above := by
      rw [← List.mem_cons]
      constructor
      · rintro ⟨ids, hids, hmem⟩
        rwa [(superclasses_of hg habove).unique hids]
      · exact fun hmem => ⟨_, superclasses_of hg habove, hmem⟩
    -- With enough rounds an operation on the maps does what it does on the graph.
    rw [outcome_perform hg hop hrounds, body?_of hid, body?_of habove, hchain]
    simp only [outcomeOf_eq_error, Operation.apply, Except.map_eq_error, setSuperclass_eq_cycle]
    constructor
    · rintro ⟨name, b', ⟨hclass, hclass', hcycle, -⟩, -⟩
      exact ⟨hclass, hclass', hcycle⟩
    · rintro ⟨hclass, hclass', hcycle⟩
      exact ⟨_, _, ⟨hclass, hclass', hcycle, rfl⟩, rfl⟩
  atomic := by
    intro op hop
    -- With enough rounds an operation does what it does to the graph, and a refusal keeps the
    -- graph.
    have hrun : ∀ rounds > g.size, (op.perform rounds).outcome (of g) = outcomeOf g (op.apply g) :=
      fun rounds => outcome_perform hg fun id hid => has_of.1 (hop id hid)
    cases hr : op.apply g with
    | error e =>
      rw [hr] at hrun
      exact ⟨_, _, hrun, fun _ _ => rfl⟩
    | ok found =>
      rw [hr] at hrun
      exact ⟨_, _, hrun, fun e he => by cases he⟩

/-- Operations lead from the builder of a graph to the builder of another one. -/
private theorem exists_built_of_reached (h : Reached b) : ∃ g : TypeGraph, g.Built ∧ b = of g := by
  induction h with
  | start => exact ⟨_, .prelude, start_eq⟩
  | step op rounds _ hop hrun ih =>
    obtain ⟨g, hg, rfl⟩ := ih
    have hplaces : ∀ id ∈ op.places, id ∈ g.places := fun id hid => has_of.1 (hop id hid)
    -- The outcome is the one after enough rounds.
    have hmore := Building.continues_perform (Nat.le_add_right rounds (g.size + 1)) op _ _ hrun
    rw [outcome_perform hg hplaces (by omega)] at hmore
    cases hr : op.apply g with
    | error e =>
      rw [hr] at hmore
      cases hmore
      exact ⟨g, hg, rfl⟩
    | ok found =>
      rw [hr] at hmore
      cases hmore
      exact ⟨_, Operation.built_of_apply hg hplaces hr, rfl⟩

/-- Whatever is done to a builder, it is sound. -/
theorem sound_of_reached (h : Reached b) : b.Sound := by
  obtain ⟨g, hg, rfl⟩ := exists_built_of_reached h
  exact sound_of hg

/-- The builder after two classes have been declared and one has been put below the other. -/
def pets : Builder where
  types := start.types ++ #[⟨"pets.Animal", .classType (.declared true)⟩,
    ⟨"pets.Dog", .classType { ClassBody.declared false with superclass := some ⟨32⟩ }⟩]
  names := ("pets.Dog", ⟨33⟩) :: ("pets.Animal", ⟨32⟩) :: start.names
  structural := []

/-- The builder of the pets is reached by three operations. -/
private theorem reached_pets : Reached pets := by
  have hanimal := Reached.step (.declareClass "pets.Animal" true) 0 .start nofun rfl
  have hdog := Reached.step (.declareClass "pets.Dog" false) 0 hanimal nofun rfl
  exact .step (.setSuperclass ⟨33⟩ ⟨32⟩) 1 hdog (by decide) rfl

/-- Putting the animal below the dog is refused, and changes nothing. -/
theorem sound_pets : Reached pets ∧ pets.Sound ∧
    ((Operation.setSuperclass ⟨32⟩ ⟨33⟩).perform 2).outcome pets =
      some (.error (.superclassCycle "pets.Animal"), pets) :=
  ⟨reached_pets, sound_of_reached reached_pets, rfl⟩

end Builder

end GraphCodec
