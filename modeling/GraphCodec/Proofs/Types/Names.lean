import GraphCodec.Proofs.Schema.Meaning
import GraphCodec.Proofs.Types.Named

/-!
# Names as expressions

The term of a type has an expression (`TypeTerm.expression`), and in a graph that named operations
lead to the name of the type spells it (`TypeGraph.WellNamed.spells`), however deep the type is
nested.  So the name is parsed as that expression, and resolving it finds the type and all its parts
where they are (`TypeGraph.WellNamed.resolve_expression`).

Any other expression has the same meaning with its paths in full, and in full it is the expression
of its term (`TypeExpr.expression_of_meaning`).  So names, types and expressions in full belong to
each other one by one (`TypeGraph.Named.resolveIn_name`).  This fails where structural types are
made of places without names (`TypeGraph.not_resolveIn_name`).
-/

namespace GraphCodec

open TypeExpr (IsPath Spells EndsPath)

/-! ### The expression of a term -/

/-- An expression with other arguments. -/
def TypeExpr.appliedTo : TypeExpr → List TypeExpr → TypeExpr
  | .mk path _ dims, arguments => .mk path arguments dims

namespace TypeTerm

mutual

/-- The expression for a term: its names in full, and no blanks but behind commas. -/
def expression : TypeTerm → TypeExpr
  | .standard id => .mk (TypeGraph.prelude.name id) [] 0
  | .declared name => .mk name [] 0
  | .array component => component.expression.inArray
  | .applied raw arguments => raw.expression.appliedTo (expressions arguments)

/-- The expressions for some terms. -/
def expressions : List TypeTerm → List TypeExpr
  | [] => []
  | t :: ts => t.expression :: expressions ts

end

/-- The expressions of several terms are those of each of them. -/
private theorem expressions_eq_map (ts : List TypeTerm) : expressions ts = ts.map expression := by
  induction ts with
  | nil => rw [expressions, List.map_nil]
  | cons t ts ih => rw [expressions, List.map_cons, ih]

end TypeTerm

namespace TypeGraph

variable {g g' : TypeGraph} {id : TypeId}

/-- The expression of a type that is made of no others is its name. -/
theorem WellNamed.expression_of_parts (hg : g.WellNamed) (h : (g.kind id).parts = []) :
    (g.term id).expression = .mk (g.name id) [] 0 := by
  rw [term_of_parts h]
  split
  case isTrue hprelude => rw [TypeTerm.expression, (hg.standard id hprelude).1]
  case isFalse => rw [TypeTerm.expression]

/-- The expression of an array is that of its component with one more level. -/
private theorem expression_of_arrayType {component : TypeId}
    (h : g.kind id = .arrayType component) :
    (g.term id).expression = (g.term component).expression.inArray := by
  rw [term_of_arrayType h, TypeTerm.expression]

/-- What is applied to arguments is a type without parts. -/
theorem WellNamed.parts_of_applied (hg : g.WellNamed) {raw : TypeId} {arguments : List TypeId}
    (h : g.kind id = .parameterized raw arguments) : (g.kind raw).parts = [] := by
  obtain ⟨hne, happlies⟩ := hg.applied id raw arguments h
  -- A type with parts has no body, so it takes no arguments.
  refine Decidable.byContradiction fun hparts => ?_
  rcases happlies with hzero | hany
  · exact hne (List.length_eq_zero_iff.1 hzero)
  · rw [classBody?, TypeKind.classBody?_of_parts hparts] at hany
    cases hany

/-- The expression of an application has the raw class as its path and those of the arguments. -/
private theorem WellNamed.expression_of_parameterized (hg : g.WellNamed) {raw : TypeId}
    {arguments : List TypeId} (h : g.kind id = .parameterized raw arguments) :
    (g.term id).expression =
      .mk (g.name raw) (arguments.map fun a => (g.term a).expression) 0 := by
  rw [term_of_parameterized h, TypeTerm.expression, TypeTerm.expressions_eq_map, List.map_map,
    hg.expression_of_parts (hg.parts_of_applied h)]
  rfl

/-! ### Names spell expressions -/

/-- Names with commas between them spell the arguments, if each of them spells its expression. -/
private theorem spells_arguments {α : Type} {text : α → String} {e : α → TypeExpr} {a : α}
    {others : List α} (h : ∀ x ∈ a :: others, Spells (text x).toList (e x).tokens) :
    Spells ((String.intercalate ", " ((a :: others).map text)).toList ++ ['>'])
      ((e a).tokens ++ TypeExpr.otherTokens (others.map e)) := by
  induction others generalizing a with
  -- The last argument is followed by the closing bracket.
  | nil =>
    rw [List.map_singleton, String.intercalate_singleton]
    exact (h a List.mem_cons_self).append (.symbol rfl .done) (by simp [EndsPath]; decide)
  | cons b others ih =>
    -- Any other one is followed by a comma and a blank.
    have hrest := ih fun x hx => h x (List.mem_cons_of_mem _ hx)
    have htext : (String.intercalate ", " ((a :: b :: others).map text)).toList ++ ['>'] =
        (text a).toList ++
          (',' :: ' ' :: ((String.intercalate ", " ((b :: others).map text)).toList ++ ['>'])) := by
      rw [List.map_cons, List.map_cons, String.intercalate_cons_cons, String.toList_append,
        String.toList_append, List.append_assoc, List.append_assoc]
      rfl
    rw [htext]
    exact (h a List.mem_cons_self).append (.symbol rfl (.blank rfl hrest))
      (by simp [EndsPath]; decide)

/-- The name of a type spells its expression. -/
theorem WellNamed.spells (hg : g.WellNamed) (hbuilt : g.Built) (hid : id ∈ g.places)
    (hres : id.isReserved = false) :
    Spells (g.name id).toList (g.term id).expression.tokens := by
  -- Parts stand below what is made of them.
  induction hn : id.index using Nat.strongRecOn generalizing id with
  | ind n ih =>
    -- Every part is named by what spells its expression.
    have hpart : ∀ p ∈ (g.kind id).parts, Spells (g.name p).toList (g.term p).expression.tokens :=
      fun p hp => ih p.index (hn ▸ index_lt_of_mem_parts hp) (mem_places_of_mem_parts hid hp)
        (hg.parts id p hp) rfl
    cases hk : g.kind id with
    -- The name of an array is that of its component and brackets.
    | arrayType component =>
      rw [hbuilt.shared.name id _ (by rw [hk]; rfl), expression_of_arrayType hk,
        TypeExpr.tokens_inArray, String.toList_append]
      exact (hpart component (by rw [hk]; exact List.mem_cons_self)).append
        (.symbol rfl (.symbol rfl .done)) (by simp [EndsPath]; decide)
    -- The name of an application is that of the class, and those of the arguments in angle
    -- brackets.
    | parameterized raw arguments =>
      obtain ⟨a, others, rfl⟩ := List.exists_cons_of_ne_nil (hg.applied id raw arguments hk).1
      have hraw := hpart raw (by rw [hk]; exact List.mem_cons_self)
      rw [hg.expression_of_parts (hg.parts_of_applied hk)] at hraw
      have harguments : ∀ x ∈ a :: others, Spells (g.name x).toList (g.term x).expression.tokens :=
        fun x hx => hpart x (by rw [hk]; exact List.mem_cons_of_mem _ hx)
      have htext : (g.name id).toList = (g.name raw).toList ++
          '<' :: ((String.intercalate ", " ((a :: others).map g.name)).toList ++ ['>']) := by
        rw [hbuilt.shared.name id _ (by rw [hk]; rfl)]
        simp
      have htokens : (g.term id).expression.tokens = (TypeExpr.mk (g.name raw) [] 0).tokens ++
          .less :: ((g.term a).expression.tokens ++
            TypeExpr.otherTokens (others.map fun a => (g.term a).expression)) := by
        rw [hg.expression_of_parameterized hk, List.map_cons, TypeExpr.tokens,
          TypeExpr.argumentTokens, TypeExpr.dimTokens, List.append_nil, TypeExpr.tokens]
        rfl
      rw [htext, htokens]
      exact hraw.append (.symbol rfl (spells_arguments harguments)) (by simp [EndsPath]; decide)
    -- Any other type has no parts, and a path as its name.
    | _ =>
      have hparts : (g.kind id).parts = [] := by rw [hk]; rfl
      rw [hg.expression_of_parts hparts]
      exact TypeExpr.spells_path (hg.path id hid hres hparts)

/-! ### Names are resolved to their types -/

/-- A type that is made of no others is what its name stands for. -/
theorem WellNamed.typeNamed?_name (hg : g.WellNamed) (hbuilt : g.Built) (hid : id ∈ g.places)
    (hres : id.isReserved = false) (hparts : (g.kind id).parts = []) :
    g.typeNamed? (g.name id) = some id := by
  unfold typeNamed?
  split
  -- The name is a keyword, and stands for the type whose keyword it is.
  case h_1 p hp =>
    obtain ⟨hname, hpparts, hprelude, hpres⟩ := hg.keyword p
    have hfind : Primitive.all.find? (·.keyword == g.name id) = some p := hp
    have hkeyword := List.find?_some hfind
    rw [beq_iff_eq] at hkeyword
    rw [hbuilt.consistent.name_inj p.id id (hbuilt.mem_of_isPrelude hprelude) hid hpres hres hpparts
      hparts (hname.trans hkeyword)]
  -- It is looked up as a plain name.
  case h_2 =>
    have hplain := (hg.path id hid hres hparts).plainName
    rw [(hbuilt.lookup?_eq_some hplain).2 ⟨hid, hres, rfl⟩]

/-- A structural type that is there is shared. -/
private theorem Built.intern_eq (hg : g.Built) (hid : id ∈ g.places)
    (hparts : (g.kind id).parts ≠ []) (name : String) : g.intern ⟨name, g.kind id⟩ = (id, g) := by
  unfold intern
  -- The search finds a type of that kind, and there is only one.
  cases hfind : g.places.find? fun x => g.kind x = g.kind id with
  | none => exact absurd (List.find?_eq_none.1 hfind id hid) (by simp)
  | some found =>
    have hkind := List.find?_some hfind
    rw [decide_eq_true_eq] at hkind
    rw [hg.shared.unique found id (List.mem_of_find?_eq_some hfind) hid (hkind ▸ hparts) hkind]

end TypeGraph

namespace Resolving

open TypeGraph

variable {g g' : TypeGraph} {id component : TypeId}

/-- One more level of arrays. -/
private theorem yields_arrays_succ {element : TypeId} {dims : Nat}
    (h : (arrays element dims).Yields g component g') :
    (arrays element (dims + 1)).Yields g (g'.array component).1 (g'.array component).2 := by
  induction dims generalizing element g with
  -- Without other levels the array is formed of the element.
  | zero =>
    obtain ⟨rfl, rfl⟩ := yields_pure.1 h
    unfold arrays
    exact yields_bind.2 ⟨_, _, yields_get.2 ⟨rfl, rfl⟩,
      yields_bind.2 ⟨⟨⟩, _, yields_set.2 rfl, yields_pure.2 ⟨rfl, rfl⟩⟩⟩
  -- Otherwise one level is formed first and the others after it.
  | succ dims ih =>
    unfold arrays at h
    obtain ⟨_, _, hget, h⟩ := yields_bind.1 h
    obtain ⟨rfl, rfl⟩ := yields_get.1 hget
    obtain ⟨_, _, hset, h⟩ := yields_bind.1 h
    obtain rfl := yields_set.1 hset
    unfold arrays
    exact yields_bind.2 ⟨_, _, yields_get.2 ⟨rfl, rfl⟩,
      yields_bind.2 ⟨⟨⟩, _, yields_set.2 rfl, ih h⟩⟩

/-- An expression with one more level of arrays around it is resolved to the arrays. -/
private theorem yields_inArray {e : TypeExpr} (h : e.resolve.Yields g component g') :
    e.inArray.resolve.Yields g (g'.array component).1 (g'.array component).2 := by
  obtain ⟨path, arguments, dims⟩ := e
  -- The expression is resolved as before up to its last step.
  unfold TypeExpr.resolve at h
  obtain ⟨raw, g₁, hraw, h⟩ := yields_bind.1 h
  obtain ⟨ids, g₂, hids, h⟩ := yields_bind.1 h
  obtain ⟨applied, g₃, happlied, h⟩ := yields_bind.1 h
  unfold TypeExpr.inArray TypeExpr.resolve
  exact yields_bind.2 ⟨_, _, hraw, yields_bind.2 ⟨_, _, hids,
    yields_bind.2 ⟨_, _, happlied, yields_arrays_succ h⟩⟩⟩

/-- A name is applied to arguments that are resolved. -/
private theorem yields_applied {path : String} {arguments : List TypeExpr} {raw : TypeId}
    {ids : List TypeId} (hraw : g.typeNamed? path = some raw)
    (harguments : (TypeExpr.resolveAll arguments).Yields g ids g)
    (h : g.parameterized raw ids = .ok (id, g)) :
    (TypeExpr.mk path arguments 0).resolve.Yields g id g := by
  unfold TypeExpr.resolve
  exact yields_bind.2 ⟨_, _, yields_named hraw, yields_bind.2 ⟨_, _, harguments,
    yields_bind.2 ⟨_, _, yields_parameterized h, yields_pure.2 ⟨rfl, rfl⟩⟩⟩⟩

/-- Expressions that are resolved one by one to what is there are resolved together. -/
private theorem yields_resolveAll {e : TypeId → TypeExpr} {ids : List TypeId}
    (h : ∀ id ∈ ids, (e id).resolve.Yields g id g) :
    (TypeExpr.resolveAll (ids.map e)).Yields g ids g := by
  -- One expression after the other, all in the same graph.
  induction ids with
  | nil =>
    unfold TypeExpr.resolveAll
    exact yields_pure.2 ⟨rfl, rfl⟩
  | cons id ids ih =>
    unfold TypeExpr.resolveAll
    exact yields_bind.2 ⟨_, _, h id List.mem_cons_self, yields_bind.2 ⟨_, _,
      ih fun other hother => h other (List.mem_cons_of_mem _ hother), yields_pure.2 ⟨rfl, rfl⟩⟩⟩

end Resolving

namespace TypeGraph

variable {g : TypeGraph} {id : TypeId}

/-- Resolving the expression of a type yields the type, and puts nothing into the graph. -/
theorem WellNamed.resolve_expression (hg : g.WellNamed) (hbuilt : g.Built) (hid : id ∈ g.places)
    (hres : id.isReserved = false) : (g.term id).expression.resolve.Yields g id g := by
  -- Types are built from types in front of them, so the place of a part is smaller.
  induction hn : id.index using Nat.strongRecOn generalizing id with
  | ind n ih =>
    have hpart : ∀ p ∈ (g.kind id).parts, (g.term p).expression.resolve.Yields g p g :=
      fun p hp => ih p.index (hn ▸ index_lt_of_mem_parts hp) (mem_places_of_mem_parts hid hp)
        (hg.parts id p hp) rfl
    -- By what the type is made of.
    cases hk : g.kind id with
    | arrayType component =>
      -- The array is there already, so that it is interned changes nothing.
      have harray : g.array component = (id, g) := by
        rw [array, ← hk, hbuilt.intern_eq hid (by rw [hk]; exact List.cons_ne_nil _ _)]
      have hcomponent := hpart component (by rw [hk]; exact List.mem_cons_self)
      have hyields := Resolving.yields_inArray hcomponent
      rwa [harray, ← expression_of_arrayType hk] at hyields
    | parameterized raw arguments =>
      have hmem : ∀ p ∈ raw :: arguments, p ∈ (g.kind id).parts := by
        rw [hk]
        exact fun _ hp => hp
      have hmemRaw := hmem raw List.mem_cons_self
      have hraw := hg.typeNamed?_name hbuilt (mem_places_of_mem_parts hid hmemRaw)
        (hg.parts id raw hmemRaw) (hg.parts_of_applied hk)
      have harguments := Resolving.yields_resolveAll
        fun a ha => hpart a (hmem a (List.mem_cons_of_mem _ ha))
      -- So is what is applied to arguments.
      have hparameterized : g.parameterized raw arguments = .ok (id, g) := by
        obtain ⟨hne, happlies⟩ := hg.applied id raw arguments hk
        obtain ⟨id', g', hok⟩ := exists_parameterized happlies
        rcases parameterized_eq_ok.1 hok with ⟨hnil, -⟩ | ⟨-, body, -, -, hintern⟩
        · exact absurd hnil hne
        · rw [application, ← hk,
            hbuilt.intern_eq hid (by rw [hk]; exact List.cons_ne_nil _ _)] at hintern
          rw [hok, hintern]
      rw [hg.expression_of_parameterized hk]
      exact Resolving.yields_applied hraw harguments hparameterized
    -- Any other type is found under its name, and is applied to nothing.
    | _ =>
      have hparts : (g.kind id).parts = [] := by rw [hk]; rfl
      rw [hg.expression_of_parts hparts]
      refine Resolving.yields_applied (hg.typeNamed?_name hbuilt hid hres hparts) ?_
        (parameterized_eq_ok.2 (Or.inl ⟨rfl, rfl, rfl⟩))
      unfold TypeExpr.resolveAll
      exact Resolving.yields_pure.2 ⟨rfl, rfl⟩

end TypeGraph

/-! ### Shorthands -/

/-- A path in full: keywords and names of types stay as they are, and the simple names of types of
the package `std` are preceded by it. -/
def TypeGraph.fullPath (g : TypeGraph) (path : String) : String :=
  match Primitive.ofKeyword? path with
  | some _ => path
  | none => if (g.lookup? path).isSome || path.contains '.' then path else "std." ++ path

namespace TypeExpr

mutual

/-- An expression with its paths in full. -/
def inFull (g : TypeGraph) : TypeExpr → TypeExpr
  | .mk path arguments dims => .mk (g.fullPath path) (allInFull g arguments) dims

/-- Expressions with their paths in full. -/
def allInFull (g : TypeGraph) : List TypeExpr → List TypeExpr
  | [] => []
  | e :: rest => e.inFull g :: allInFull g rest

end

end TypeExpr

namespace TypeTerm

/-- An applied class has its path and the expressions of its arguments. -/
private theorem expression_apply {raw : TypeTerm} {path : String}
    (h : raw.expression = .mk path [] 0)
    (ts : List TypeTerm) : (raw.apply ts).expression = .mk path (ts.map expression) 0 := by
  unfold apply
  split
  -- Applied to nothing it is itself.
  case isTrue hnil => rw [List.isEmpty_iff.1 hnil, h, List.map_nil]
  case isFalse => rw [expression, h, expressions_eq_map, TypeExpr.appliedTo]

/-- Levels of arrays around a term are levels around its expression. -/
private theorem expression_arrays {t : TypeTerm} {path : String} {arguments : List TypeExpr}
    {dims : Nat} (h : t.expression = .mk path arguments dims) (more : Nat) :
    (t.arrays more).expression = .mk path arguments (dims + more) := by
  induction more generalizing t dims with
  -- One level after the other.
  | zero => exact h
  | succ more ih =>
    have harray : (array t).expression = .mk path arguments (dims + 1) := by
      rw [expression, h, TypeExpr.inArray]
    rw [arrays, ih harray, Nat.add_assoc, Nat.add_comm 1 more]

end TypeTerm

namespace TypeGraph

variable {g g' : TypeGraph} {id : TypeId}

/-- What a path stands for has the path in full as its name. -/
theorem WellNamed.name_of_typeNamed? (hg : g.WellNamed) (hbuilt : g.Built) {path : String}
    (hpath : PlainName path) (h : g.typeNamed? path = some id) : g.name id = g.fullPath path ∧
      id ∈ g.places ∧ id.isReserved = false ∧ (g.kind id).parts = [] := by
  -- A plain name that is found is not one of a structural type.
  have hfound : ∀ {name : String}, PlainName name → g.lookup? name = some id → g.name id = name ∧
      id ∈ g.places ∧ id.isReserved = false ∧ (g.kind id).parts = [] := by
    intro name hname hlookup
    obtain ⟨hid, hres, rfl⟩ := (hbuilt.lookup?_eq_some hname).1 hlookup
    exact ⟨rfl, hid, hres, Decidable.byContradiction fun hparts =>
      hbuilt.shared.not_plainName hparts hname⟩
  unfold fullPath
  -- A keyword, a name as it is, or a name of the package `std`.
  rcases typeNamed?_eq_some.1 h with ⟨p, hp, rfl⟩ | ⟨hp, hlookup | ⟨hlookup, hdot, hstd⟩⟩
  · obtain ⟨hname, hparts, hprelude, hres⟩ := hg.keyword p
    have hfind : Primitive.all.find? (·.keyword == path) = some p := hp
    have hkeyword := List.find?_some hfind
    rw [beq_iff_eq] at hkeyword
    rw [hp]
    exact ⟨hname.trans hkeyword, hbuilt.mem_of_isPrelude hprelude, hres, hparts⟩
  · rw [hp, hlookup]
    exact hfound hpath hlookup
  · rw [hp, hlookup, hdot]
    exact hfound hpath.append_std hstd

end TypeGraph

namespace TypeExpr

open TypeGraph

variable {g : TypeGraph}

mutual

/-- What an expression means has the expression in full as its own. -/
theorem expression_of_meaning (hg : g.WellNamed) (hbuilt : g.Built) {e : TypeExpr} (he : e.Plain)
    {t : TypeTerm} (h : e.meaning? g.names = some t) : t.expression = e.inFull g := by
  -- The path means a type under its full name, and the arguments what they mean in full.
  obtain ⟨path, arguments, dims⟩ := e
  obtain ⟨hpath, hplain⟩ := he
  obtain ⟨raw, arity, ts, hraw, hts, -, rfl⟩ := meaning?_eq_some.1 h
  obtain ⟨id, hid, hfound⟩ := Option.map_eq_some_iff.1 hraw
  cases hfound
  obtain ⟨hname, -, -, hparts⟩ := hg.name_of_typeNamed? hbuilt hpath hid
  have hexpression := hg.expression_of_parts hparts
  rw [TypeTerm.expression_arrays (TypeTerm.expression_apply hexpression ts), Nat.zero_add,
    expressions_of_meanings hg hbuilt hplain hts, hname, inFull]

/-- What several expressions mean has the expressions in full as its own. -/
theorem expressions_of_meanings (hg : g.WellNamed) (hbuilt : g.Built) {es : List TypeExpr}
    (hes : ∀ e ∈ es, e.Plain) {ts : List TypeTerm} (h : meanings? g.names es = some ts) :
    ts.map TypeTerm.expression = allInFull g es := by
  -- One expression after the other.
  cases es with
  | nil =>
    cases h
    rw [allInFull, List.map_nil]
  | cons e rest =>
    obtain ⟨t, others, ht, hothers, rfl⟩ := meanings?_cons_eq_some.1 h
    rw [List.map_cons, allInFull, expression_of_meaning hg hbuilt (hes e List.mem_cons_self) ht,
      expressions_of_meanings hg hbuilt (fun x hx => hes x (List.mem_cons_of_mem _ hx)) hothers]

end

mutual

/-- An expression in full means what the expression means. -/
private theorem meaning?_inFull (hg : g.WellNamed) (hbuilt : g.Built) {e : TypeExpr} (he : e.Plain)
    {t : TypeTerm} (h : e.meaning? g.names = some t) : (e.inFull g).meaning? g.names = some t := by
  -- The path in full stands for the type that the path stands for.
  obtain ⟨path, arguments, dims⟩ := e
  obtain ⟨hpath, hplain⟩ := he
  obtain ⟨raw, arity, ts, hraw, hts, happlies, ht⟩ := meaning?_eq_some.1 h
  obtain ⟨id, hid, hfound⟩ := Option.map_eq_some_iff.1 hraw
  obtain ⟨hname, hmem, hres, hparts⟩ := hg.name_of_typeNamed? hbuilt hpath hid
  have hfull : g.names (g.fullPath path) = some (raw, arity) := by
    rw [names, ← hname, hg.typeNamed?_name hbuilt hmem hres hparts, ← hfound]
    rfl
  rw [inFull]
  -- The arguments are in full as well, and the levels of arrays are the same.
  exact meaning?_eq_some.2 ⟨raw, arity, ts, hfull, meanings?_allInFull hg hbuilt hplain hts,
    happlies, ht⟩

/-- Several expressions in full mean what the expressions mean. -/
theorem meanings?_allInFull (hg : g.WellNamed) (hbuilt : g.Built) {es : List TypeExpr}
    (hes : ∀ e ∈ es, e.Plain) {ts : List TypeTerm} (h : meanings? g.names es = some ts) :
    meanings? g.names (allInFull g es) = some ts := by
  -- One expression after the other.
  cases es with
  | nil =>
    rw [allInFull]
    exact h
  | cons e rest =>
    obtain ⟨t, others, ht, hothers, rfl⟩ := meanings?_cons_eq_some.1 h
    rw [allInFull]
    exact meanings?_cons_eq_some.2 ⟨t, others,
      meaning?_inFull hg hbuilt (hes e List.mem_cons_self) ht,
      meanings?_allInFull hg hbuilt (fun x hx => hes x (List.mem_cons_of_mem _ hx)) hothers, rfl⟩

end

end TypeExpr

/-! ### Names and expressions -/

namespace TypeExpr

/-- A text is resolved if it is parsed as an expression that is resolved. -/
private theorem resolveIn_eq_ok {g g' : TypeGraph} {source : String} {id : TypeId} :
    resolveIn g source = (.ok id, g') ↔ ∃ e, parse source = .ok e ∧ e.resolve.Yields g id g' := by
  unfold resolveIn
  -- A text that is not parsed is refused.
  cases parse source with
  | error e => simp
  | ok e => simp [Resolving.Yields]

/-- Expressions that are resolved one after the other stand for one type exactly if they are the
same in full. -/
private theorem eq_iff_inFull_eq {g g₁ g₂ : TypeGraph} (hg : g.WellNamed) (hbuilt : g.Built)
    {e₁ e₂ : TypeExpr} (he₁ : e₁.Plain) (he₂ : e₂.Plain) {id₁ id₂ : TypeId}
    (h₁ : e₁.resolve.Yields g id₁ g₁) (h₂ : e₂.resolve.Yields g₁ id₂ g₂) :
    id₁ = id₂ ↔ e₁.inFull g = e₂.inFull g := by
  -- Each expression leads to a graph that can be built.
  have hbuilt₁ : g₁.Built := (resolve_yields hbuilt.consistent.firstDeclared_le h₁).1.built hbuilt
  have hbuilt₂ : g₂.Built := (resolve_yields hbuilt₁.consistent.firstDeclared_le h₂).1.built hbuilt₁
  obtain ⟨t₁, ht₁, hputs₁⟩ := puts_of_resolve hbuilt he₁ h₁
  obtain ⟨t₂, ht₂, hputs₂⟩ := puts_of_resolve hbuilt₁ he₂ h₂
  -- Names stand for the same after the first expression as before it.
  have hnames : ∀ path, PlainName path → g₁.names path = g.names path := fun path =>
    hbuilt.names_eq hbuilt₁ hputs₁.adds.carries fun id hid hnot => (hputs₁.adds.new id hid hnot).1
  rw [meaning?_congr hnames he₂] at ht₂
  have hmem : id₁ ∈ g₂.places := hputs₂.adds.carries.places id₁ hputs₁.mem
  have hterm : g₂.term id₁ = t₁ := (hputs₂.adds.carries.term hputs₁.mem).trans hputs₁.term
  constructor
  -- The same type has one term, and a term has one expression in full.
  · rintro rfl
    have hsame : t₁ = t₂ := hterm.symm.trans hputs₂.term
    rw [← expression_of_meaning hg hbuilt he₁ ht₁, ← expression_of_meaning hg hbuilt he₂ ht₂, hsame]
  -- Expressions that are the same in full mean the same, and a term stands in one place.
  · intro hfull
    have hsame : some t₁ = some t₂ := by
      rw [← meaning?_inFull hg hbuilt he₁ ht₁, hfull, meaning?_inFull hg hbuilt he₂ ht₂]
    refine hbuilt₂.term_injective hmem hputs₂.mem ?_
    rw [hterm, hputs₂.term, Option.some.inj hsame]

end TypeExpr

namespace TypeGraph

open TypeExpr (parse resolveIn)

variable {g : TypeGraph} {id : TypeId}

/-- The name of a type is parsed as its expression. -/
theorem WellNamed.parse_name (hg : g.WellNamed) (hbuilt : g.Built) (hid : id ∈ g.places)
    (hres : id.isReserved = false) : parse (g.name id) = .ok (g.term id).expression :=
  TypeExpr.parse_of_spells (hg.spells hbuilt hid hres)

/-- No two types have one name. -/
theorem WellNamed.name_inj (hg : g.WellNamed) (hbuilt : g.Built) {a b : TypeId} (ha : a ∈ g.places)
    (hb : b ∈ g.places) (hares : a.isReserved = false) (hbres : b.isReserved = false)
    (h : g.name a = g.name b) : a = b := by
  -- Both have the expression that the name is parsed as, and it is resolved to one type.
  have hparse := hg.parse_name hbuilt ha hares
  rw [h, hg.parse_name hbuilt hb hbres] at hparse
  have hyields := hg.resolve_expression hbuilt hb hbres
  rw [Except.ok.inj hparse] at hyields
  have hsame := (hg.resolve_expression hbuilt ha hares).symm.trans hyields
  exact Except.ok.inj (Prod.mk.inj hsame).1

/-- A type is found under its name. -/
private theorem WellNamed.lookup?_name (hg : g.WellNamed) (hbuilt : g.Built) (hid : id ∈ g.places)
    (hres : id.isReserved = false) : g.lookup? (g.name id) = some id := by
  -- The search looks at all types that are not reserved.
  cases h : g.lookup? (g.name id) with
  | none => exact absurd rfl (name_ne_of_lookup?_eq_none h hid hres)
  | some found =>
    have hfound := List.find?_some h
    simp only [Bool.and_eq_true, Bool.not_eq_true', beq_iff_eq] at hfound
    have hmem := List.mem_reverse.1 (List.mem_of_find?_eq_some h)
    -- What it finds has the same name.
    rw [hg.name_inj hbuilt hmem hid hfound.1 hres hfound.2]

/-- Names and expressions are inverse to each other in a graph that named operations lead to: no two
types have one name, a type is found under its name, and its name is an expression that is resolved
to the type without putting anything into the graph.  So two expressions stand for one type exactly
if they are the same when their paths are in full.  Resolving leads to such a graph again. -/
theorem Named.resolveIn_name (hg : g.Named) :
    (∀ a ∈ g.places, ∀ b ∈ g.places, a.isReserved = false → b.isReserved = false →
      g.name a = g.name b → a = b) ∧
    (∀ id ∈ g.places, id.isReserved = false → g.lookup? (g.name id) = some id ∧
      (∃ e, parse (g.name id) = .ok e) ∧ resolveIn g (g.name id) = (.ok id, g)) ∧
    (∀ source₁ source₂ id₁ id₂ g₁ g₂, resolveIn g source₁ = (.ok id₁, g₁) →
      resolveIn g₁ source₂ = (.ok id₂, g₂) →
        (id₁ = id₂ ↔ ∃ e₁ e₂, parse source₁ = .ok e₁ ∧ parse source₂ = .ok e₂ ∧
          e₁.inFull g = e₂.inFull g)) ∧
    ∀ source, (resolveIn g source).2.Named := by
  have hnamed := hg.wellNamed
  have hbuilt := hg.built
  -- Names are injective, types are found under them, and resolving leads to such graphs again.
  refine ⟨fun a ha b hb => hnamed.name_inj hbuilt ha hb, fun id hid hres => ⟨?_, ?_, ?_⟩, ?_,
    hg.of_resolveIn⟩
  -- Found under its name.
  · exact hnamed.lookup?_name hbuilt hid hres
  -- The name is an expression.
  · exact ⟨_, hnamed.parse_name hbuilt hid hres⟩
  -- It is resolved to the type.
  · exact TypeExpr.resolveIn_eq_ok.2
      ⟨_, hnamed.parse_name hbuilt hid hres, hnamed.resolve_expression hbuilt hid hres⟩
  -- Two texts: what they are parsed as decides.
  · intro source₁ source₂ id₁ id₂ g₁ g₂ h₁ h₂
    obtain ⟨e₁, he₁, hyields₁⟩ := TypeExpr.resolveIn_eq_ok.1 h₁
    obtain ⟨e₂, he₂, hyields₂⟩ := TypeExpr.resolveIn_eq_ok.1 h₂
    rw [TypeExpr.eq_iff_inFull_eq hnamed hbuilt (TypeExpr.plain_of_parse he₁)
      (TypeExpr.plain_of_parse he₂) hyields₁ hyields₂]
    simp [he₁, he₂]

/-- The graph after a class has been declared, its arrays made and a list of these. -/
def herds : TypeGraph :=
  (Operation.parameterized .list [⟨33⟩]).after
    ((Operation.array ⟨32⟩).after ((Operation.declareClass "zoo.Animal" false).after .prelude))

/-- The herds are reached by named operations. -/
private theorem named_herds : herds.Named := by
  -- The animals are declared.
  have hclass : ((Operation.declareClass "zoo.Animal" false).after .prelude).Named :=
    .step _ .prelude (by decide) (by decide)
  -- Then herds of them are formed, and herds of herds.
  have harray : ((Operation.array ⟨32⟩).after
      ((Operation.declareClass "zoo.Animal" false).after .prelude)).Named :=
    .step _ hclass (by decide +kernel) (by decide)
  exact .step _ harray (by decide +kernel) (by decide)

/-- The list is found under its name, and its name is resolved to it. -/
theorem resolveIn_herds : herds.Named ∧ herds.name ⟨34⟩ = "std.List<zoo.Animal[]>" ∧
    herds.lookup? "std.List<zoo.Animal[]>" = some ⟨34⟩ ∧
    resolveIn herds "std.List<zoo.Animal[]>" = (.ok ⟨34⟩, herds) := by
  have hname : herds.name ⟨34⟩ = "std.List<zoo.Animal[]>" := by decide +kernel
  obtain ⟨hlookup, -, hresolve⟩ :=
    named_herds.resolveIn_name.2.1 ⟨34⟩ (by decide +kernel) (by decide)
  rw [hname] at hlookup hresolve
  exact ⟨named_herds, hname, hlookup, hresolve⟩

/-- Brackets alone are no expression. -/
private theorem parse_brackets (e : TypeExpr) : parse "[]" ≠ .ok e := by
  have hspells : Spells "[]".toList [.leftBracket, .rightBracket] :=
    .symbol rfl (.symbol rfl .done)
  -- The text has the two brackets as its tokens.
  obtain ⟨ls, hls, htokens⟩ := TypeExpr.lexemes_of_spells hspells 0
  obtain ⟨span, rest, rfl, -⟩ := TypeExpr.exists_of_map_token htokens
  intro h
  unfold parse at h
  obtain ⟨ls, hls', h⟩ := Except.bind_eq_ok.1 h
  cases hls.symm.trans hls'
  obtain ⟨_, htype, -⟩ := Except.bind_eq_ok.1 h
  -- No expression begins with a bracket.
  rw [TypeExpr.parseType.eq_3 _ _ (by simp) (by simp)] at htype
  cases htype

/-- The graph after arrays have been made of two places that are kept free. -/
def nameless : TypeGraph := (Operation.array ⟨29⟩).after ((Operation.array ⟨28⟩).after .prelude)

/-- The two array types have one name, and it is no expression. -/
theorem not_resolveIn_name :
    (∀ id ∈ (Operation.array ⟨28⟩).places, id ∈ prelude.places) ∧
      (∀ id ∈ (Operation.array ⟨29⟩).places, id ∈ ((Operation.array ⟨28⟩).after prelude).places) ∧
      (Operation.array ⟨28⟩).declaredName? = none ∧ (Operation.array ⟨29⟩).declaredName? = none ∧
      ⟨32⟩ ∈ nameless.places ∧ ⟨33⟩ ∈ nameless.places ∧
      (⟨32⟩ : TypeId).isReserved = false ∧ (⟨33⟩ : TypeId).isReserved = false ∧
      nameless.name ⟨32⟩ = nameless.name ⟨33⟩ ∧ nameless.lookup? (nameless.name ⟨32⟩) = some ⟨33⟩ ∧
      ∀ e, parse (nameless.name ⟨32⟩) ≠ .ok e := by
  have hname : nameless.name ⟨32⟩ = "[]" := by decide +kernel
  -- All conjuncts but the last are evaluated.
  refine ⟨by decide, by decide +kernel, rfl, rfl, by decide +kernel, by decide +kernel, by decide,
    by decide, by decide +kernel, by decide +kernel, ?_⟩
  rw [hname]
  exact parse_brackets

end TypeGraph

end GraphCodec
