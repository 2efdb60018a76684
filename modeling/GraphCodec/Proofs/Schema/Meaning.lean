import GraphCodec.Proofs.Types.Grammar
import GraphCodec.Proofs.Types.Terms

/-!
# What type expressions mean

The paths of a type expression are made of identifiers and dots (`TypeExpr.plain_of_parse`), so they
never name a structural type, whose name has brackets.  What a path stands for is therefore the same
in every graph with the same declared types (`TypeGraph.Built.names_eq`), and so is what an
expression means (`TypeExpr.meaning?`): a term that speaks of no places.

Resolving an expression succeeds exactly when it means something, and then puts the type with that
term into the graph (`TypeExpr.puts_of_resolve`, `TypeExpr.exists_resolve`).
-/

namespace GraphCodec

/-! ### Paths -/

/-- Whether a name has no brackets. -/
def PlainName (name : String) : Prop := '<' ∉ name.toList ∧ '[' ∉ name.toList

/-- A plain name stays plain with the prefix of the standard names. -/
theorem PlainName.append_std {path : String} (h : PlainName path) : PlainName ("std." ++ path) := by
  obtain ⟨hless, hbracket⟩ := h
  constructor
  · rw [String.toList_append, List.mem_append, not_or]
    exact ⟨by decide, hless⟩
  · rw [String.toList_append, List.mem_append, not_or]
    exact ⟨by decide, hbracket⟩

namespace TypeExpr

/-- Whether the paths of an expression have no brackets. -/
inductive Plain : TypeExpr → Prop where
  | mk {path : String} {arguments : List TypeExpr} {dims : Nat} :
    PlainName path → (∀ e ∈ arguments, e.Plain) → Plain (.mk path arguments dims)

/-- A path has no brackets. -/
theorem IsPath.plainName {path : String} (h : IsPath path.toList) : PlainName path :=
  ⟨fun hmem => absurd (h.isIdentPart_of_mem hmem) (by decide),
    fun hmem => absurd (h.isIdentPart_of_mem hmem) (by decide)⟩

private theorem mem_otherTokens {others : List TypeExpr} {e : TypeExpr} (he : e ∈ others)
    {t : Token} (ht : t ∈ e.tokens) : t ∈ otherTokens others := by
  induction others with
  | nil => cases he
  -- The tokens of an argument stand behind a comma.
  | cons next others ih =>
    rw [otherTokens]
    rcases List.mem_cons.1 he with rfl | he
    · exact List.mem_cons_of_mem _ (List.mem_append_left _ ht)
    · exact List.mem_cons_of_mem _ (List.mem_append_right _ (ih he))

/-- The tokens of an argument are among those of the arguments. -/
private theorem mem_argumentTokens {arguments : List TypeExpr} {e : TypeExpr} (he : e ∈ arguments)
    {t : Token} (ht : t ∈ e.tokens) : t ∈ argumentTokens arguments := by
  cases arguments with
  | nil => cases he
  | cons first others =>
    rw [argumentTokens]
    -- The first argument stands behind the opening bracket.
    rcases List.mem_cons.1 he with rfl | he
    · exact List.mem_cons_of_mem _ (List.mem_append_left _ ht)
    · exact List.mem_cons_of_mem _ (List.mem_append_right _ (mem_otherTokens he ht))

/-- An expression whose tokens can stand in a text has paths without brackets. -/
private theorem plain_of_tokens : ∀ e : TypeExpr, (∀ t ∈ e.tokens, t.IsLexeme) → e.Plain
  | .mk path arguments dims, h => by
    rw [tokens] at h
    refine .mk (h (.path path) List.mem_cons_self).plainName fun e he => ?_
    exact plain_of_tokens e fun t ht =>
      h t (List.mem_cons_of_mem _ (List.mem_append_left _ (mem_argumentTokens he ht)))
termination_by e => sizeOf e

/-- The paths of an expression that is parsed have no brackets. -/
theorem plain_of_parse {source : String} {e : TypeExpr} (h : parse source = .ok e) : e.Plain :=
  plain_of_tokens e (renders_of_parse h).isLexeme

end TypeExpr

/-! ### What names stand for -/

/-- What names stand for: terms, and the number of type parameters if that is a class. -/
abbrev Names := String → Option (TypeTerm × Option Nat)

namespace TypeGraph

variable {g g' : TypeGraph} {id : TypeId}

/-- What a name stands for when a type is found under it. -/
def found (g : TypeGraph) (id : TypeId) : TypeTerm × Option Nat :=
  (g.term id, (g.classBody? id).map (·.arity))

/-- What names stand for in a graph. -/
def names (g : TypeGraph) : Names := fun path => (g.typeNamed? path).map g.found

/-- The name of a structural type has brackets. -/
theorem Shared.not_plainName (hg : g.Shared) (h : (g.kind id).parts ≠ []) :
    ¬PlainName (g.name id) := by
  intro hplain
  -- Arrays and applications have brackets in their names.
  cases hk : g.kind id with
  | arrayType component =>
    rw [hg.name id _ (by rw [hk]; rfl)] at hplain
    exact hplain.2 (by simp)
  | parameterized raw arguments =>
    rw [hg.name id _ (by rw [hk]; rfl)] at hplain
    exact hplain.1 (by simp)
  | _ =>
    rw [hk] at h
    exact h rfl

/-- A name without brackets is found where it stands. -/
theorem Built.lookup?_eq_some (hg : g.Built) {name : String} (hname : PlainName name) :
    g.lookup? name = some id ↔ id ∈ g.places ∧ id.isReserved = false ∧ g.name id = name := by
  -- Only names of types that are not made of others are told apart in general.
  have hparts : ∀ x : TypeId, g.name x = name → (g.kind x).parts = [] := by
    rintro x rfl
    exact Decidable.byContradiction fun hne => hg.shared.not_plainName hne hname
  have hsound : ∀ x, g.lookup? name = some x →
      x ∈ g.places ∧ x.isReserved = false ∧ g.name x = name := by
    intro x hx
    have hfound := List.find?_some hx
    simp only [Bool.and_eq_true, Bool.not_eq_true', beq_iff_eq] at hfound
    exact ⟨List.mem_reverse.1 (List.mem_of_find?_eq_some hx), hfound⟩
  refine ⟨hsound id, fun ⟨hid, hres, hid'⟩ => ?_⟩
  cases hx : g.lookup? name with
  | none => exact absurd hid' (name_ne_of_lookup?_eq_none hx hid hres)
  | some x =>
    obtain ⟨hmem, hres', hx'⟩ := hsound x hx
    rw [hg.consistent.name_inj x id hmem hid hres' hres (hparts x hx') (hparts id hid')
      (hx'.trans hid'.symm)]

/-- Putting structural types into a graph does not change what is found under plain names. -/
private theorem Built.lookup?_eq (hg : g.Built) (hg' : g'.Built) (hcarries : g.Carries g')
    (hnew : ∀ id ∈ g'.places, id ∉ g.places → (g'.kind id).parts ≠ []) {name : String}
    (hname : PlainName name) : g'.lookup? name = g.lookup? name := by
  refine Option.ext fun id => ?_
  show g'.lookup? name = some id ↔ g.lookup? name = some id
  rw [hg'.lookup?_eq_some hname, hg.lookup?_eq_some hname]
  constructor
  -- What is found was there before, since what is new has brackets in its name.
  · rintro ⟨hid, hres, hid'⟩
    have hmem : id ∈ g.places := by
      refine Decidable.byContradiction fun hnot => ?_
      exact hg'.shared.not_plainName (hnew id hid hnot) (hid' ▸ hname)
    exact ⟨hmem, hres, (hcarries.name id hmem).symm.trans hid'⟩
  -- What was there before is still found.
  · rintro ⟨hid, hres, hid'⟩
    exact ⟨hcarries.places id hid, hres, (hcarries.name id hid).trans hid'⟩

/-- Putting structural types into a graph does not change what plain names stand for. -/
theorem Built.names_eq (hg : g.Built) (hg' : g'.Built) (hcarries : g.Carries g')
    (hnew : ∀ id ∈ g'.places, id ∉ g.places → (g'.kind id).parts ≠ []) {path : String}
    (hpath : PlainName path) : g'.names path = g.names path := by
  have htype : g'.typeNamed? path = g.typeNamed? path := by
    unfold typeNamed?
    rw [hg.lookup?_eq hg' hcarries hnew hpath, hg.lookup?_eq hg' hcarries hnew hpath.append_std]
  unfold names
  -- A path stands for what is found under it, with or without the prefix.
  rw [htype]
  refine Option.map_congr fun id hid => ?_
  have hmem := typeNamed?_mem hg.consistent.firstDeclared_le hid
  rw [found, found, hcarries.term hmem, hcarries.arity hmem]

end TypeGraph

/-! ### What expressions mean -/

namespace TypeExpr

mutual

/-- The term that an expression means, if its names stand for something and its classes take the
arguments that they are given. -/
def meaning? (names : Names) : TypeExpr → Option TypeTerm
  | .mk path arguments dims => do
    let (raw, arity) ← names path
    let ts ← meanings? names arguments
    if Applies arity ts.length then return (raw.apply ts).arrays dims else none

/-- The terms that some expressions mean. -/
def meanings? (names : Names) : List TypeExpr → Option (List TypeTerm)
  | [] => some []
  | e :: rest => do
    let t ← e.meaning? names
    let ts ← meanings? names rest
    return t :: ts

end

/-- What an expression means is given by the meanings of its parts. -/
theorem meaning?_eq_some {names : Names} {path : String} {arguments : List TypeExpr} {dims : Nat}
    {t : TypeTerm} : (mk path arguments dims).meaning? names = some t ↔
      ∃ raw arity ts, names path = some (raw, arity) ∧ meanings? names arguments = some ts ∧
        Applies arity ts.length ∧ (raw.apply ts).arrays dims = t := by
  rw [meaning?]
  simp only [Option.bind_eq_bind, Option.bind_eq_some_iff, Prod.exists, Option.pure_def,
    Option.ite_none_right_eq_some, Option.some.injEq]
  -- The parts are those of the expression.
  constructor
  · rintro ⟨raw, arity, hraw, ts, hts, happlies, rfl⟩
    exact ⟨raw, arity, ts, hraw, hts, happlies, rfl⟩
  · rintro ⟨raw, arity, ts, hraw, hts, happlies, rfl⟩
    exact ⟨raw, arity, hraw, ts, hts, happlies, rfl⟩

/-- Expressions mean what each of them means. -/
theorem meanings?_cons_eq_some {names : Names} {e : TypeExpr} {rest : List TypeExpr}
    {ts : List TypeTerm} : meanings? names (e :: rest) = some ts ↔
      ∃ t others, e.meaning? names = some t ∧ meanings? names rest = some others ∧
        t :: others = ts := by
  rw [meanings?]
  simp only [Option.bind_eq_bind, Option.bind_eq_some_iff, Option.pure_def, Option.some.injEq]
  constructor
  · rintro ⟨t, ht, others, hothers, rfl⟩
    exact ⟨t, others, ht, hothers, rfl⟩
  · rintro ⟨t, others, ht, hothers, rfl⟩
    exact ⟨t, ht, others, hothers, rfl⟩

mutual

/-- What an expression means goes by what its names stand for. -/
theorem meaning?_congr {names names' : Names}
    (h : ∀ path, PlainName path → names path = names' path) {e : TypeExpr} (he : e.Plain) :
    e.meaning? names = e.meaning? names' := by
  obtain ⟨path, arguments, dims⟩ := e
  cases he with
  | mk hpath harguments => rw [meaning?, meaning?, h path hpath, meanings?_congr h harguments]

/-- The meanings of expressions depend on plain names only. -/
private theorem meanings?_congr {names names' : Names}
    (h : ∀ path, PlainName path → names path = names' path) {es : List TypeExpr}
    (hes : ∀ e ∈ es, e.Plain) : meanings? names es = meanings? names' es := by
  cases es with
  | nil => rfl
  | cons e rest =>
    rw [meanings?, meanings?, meaning?_congr h (hes e List.mem_cons_self),
      meanings?_congr h fun x hx => hes x (List.mem_cons_of_mem _ hx)]

end

end TypeExpr

/-! ### Resolving puts what is meant -/

namespace Resolving

open TypeGraph

variable {g g' : TypeGraph}

/-- Arrays around a type are put into the graph. -/
private theorem puts_arrays {element id : TypeId} {dims : Nat} (hmem : element ∈ g.places)
    (h : (arrays element dims).Yields g id g') : g.Puts id g' ((g.term element).arrays dims) := by
  induction dims generalizing element g with
  | zero =>
    obtain ⟨rfl, rfl⟩ := yields_pure.1 h
    exact ⟨.refl _ _, hmem, rfl⟩
  | succ dims ih =>
    unfold arrays at h
    obtain ⟨_, _, hget, h⟩ := yields_bind.1 h
    obtain ⟨rfl, rfl⟩ := yields_get.1 hget
    obtain ⟨_, _, hset, h⟩ := yields_bind.1 h
    obtain rfl := yields_set.1 hset
    -- The innermost array comes first.
    have hfirst := puts_array hmem
    have hrest := ih hfirst.mem h
    rw [hfirst.term] at hrest
    exact ⟨(hfirst.adds.mono fun t ht => ht.arrays dims).trans hrest.adds, hrest.mem, hrest.term⟩

/-- Arrays can be put around any type. -/
private theorem exists_arrays (element : TypeId) (dims : Nat) (g : TypeGraph) :
    ∃ id g', (arrays element dims).Yields g id g' := by
  induction dims generalizing element g with
  | zero => exact ⟨_, _, yields_pure.2 ⟨rfl, rfl⟩⟩
  | succ dims ih =>
    obtain ⟨id, g', h⟩ := ih (g.array element).1 (g.array element).2
    refine ⟨id, g', ?_⟩
    unfold arrays
    exact yields_bind.2 ⟨_, _, yields_get.2 ⟨rfl, rfl⟩, yields_bind.2 ⟨⟨⟩, _, yields_set.2 rfl, h⟩⟩

/-- A path that names a type yields it. -/
theorem yields_named {path : String} {id : TypeId} (h : g.typeNamed? path = some id) :
    (named path).Yields g id g := by
  unfold named
  refine yields_bind.2 ⟨_, _, yields_get.2 ⟨rfl, rfl⟩, ?_⟩
  rw [h]
  exact yields_pure.2 ⟨rfl, rfl⟩

/-- An application that the graph allows is yielded. -/
theorem yields_parameterized {raw id : TypeId} {arguments : List TypeId}
    (h : g.parameterized raw arguments = .ok (id, g')) :
    (parameterized raw arguments).Yields g id g' := by
  unfold parameterized
  refine yields_bind.2 ⟨_, _, yields_get.2 ⟨rfl, rfl⟩, ?_⟩
  rw [h]
  exact yields_bind.2 ⟨⟨⟩, _, yields_set.2 rfl, yields_pure.2 ⟨rfl, rfl⟩⟩

end Resolving

namespace TypeExpr

open TypeGraph

mutual

/-- An expression that is resolved means something, and a type with that meaning is put into the
graph. -/
theorem puts_of_resolve {g g' : TypeGraph} (hg : g.Built) {e : TypeExpr} (he : e.Plain)
    {id : TypeId} (h : e.resolve.Yields g id g') :
    ∃ t, e.meaning? g.names = some t ∧ g.Puts id g' t := by
  obtain ⟨path, arguments, dims⟩ := e
  obtain ⟨hpath, hplain⟩ := he
  unfold TypeExpr.resolve at h
  obtain ⟨raw, g₀, hraw, h₀⟩ := Resolving.yields_bind.1 h
  obtain ⟨hsame, hnamed⟩ := Resolving.named_yields hraw
  rw [hsame] at h₀
  obtain ⟨ids, g₁, hids, h₁⟩ := Resolving.yields_bind.1 h₀
  -- The arguments are put in first, then what is applied to them, then the arrays around it.
  obtain ⟨ts, hts, hadds₁, hmem₁, hterms⟩ := puts_of_resolveAll hg hplain hids
  obtain ⟨applied, g₂, happlied, h₂⟩ := Resolving.yields_bind.1 h₁
  have hrawMem := typeNamed?_mem hg.consistent.firstDeclared_le hnamed
  obtain ⟨hputs₂, happlies⟩ := puts_parameterized (hadds₁.carries.places raw hrawMem) hmem₁
    (Resolving.parameterized_yields happlied)
  have hputs₃ := Resolving.puts_arrays hputs₂.mem h₂
  rw [hadds₁.classBody? raw hrawMem] at happlies
  rw [hputs₂.term] at hputs₃
  rw [hadds₁.carries.term hrawMem, hterms] at hputs₂ hputs₃
  refine ⟨((g.term raw).apply ts).arrays dims, ?_, ?_, hputs₃.mem, hputs₃.term⟩
  · refine meaning?_eq_some.2 ⟨g.term raw, _, ts, by rw [names, hnamed]; rfl, hts, ?_, rfl⟩
    rw [← hterms, List.length_map]
    exact happlies
  · -- Whatever has been added is within the type that is resolved.
    have happly : g₁.Adds g₂ (·.Within (((g.term raw).apply ts).arrays dims)) :=
      hputs₂.adds.mono fun t ht => ht.arrays dims
    have hargs : g.Adds g₁ (·.Within (((g.term raw).apply ts).arrays dims)) :=
      hadds₁.mono fun t ⟨_, hu, ht⟩ => (TypeTerm.Within.apply hu ht).arrays dims
    exact (hargs.trans happly).trans hputs₃.adds

/-- Expressions that are resolved mean something, and types with those meanings are put into the
graph. -/
private theorem puts_of_resolveAll {g g' : TypeGraph} (hg : g.Built) {es : List TypeExpr}
    (hes : ∀ e ∈ es, e.Plain) {ids : List TypeId} (h : (resolveAll es).Yields g ids g') :
    ∃ ts, meanings? g.names es = some ts ∧ g.Adds g' (fun t => ∃ u ∈ ts, t.Within u) ∧
      (∀ id ∈ ids, id ∈ g'.places) ∧ ids.map g'.term = ts := by
  cases es with
  | nil =>
    unfold resolveAll at h
    obtain ⟨rfl, rfl⟩ := Resolving.yields_pure.1 h
    exact ⟨[], by rw [meanings?], .refl _ _, fun _ hid => (nomatch hid), rfl⟩
  | cons e rest =>
    unfold resolveAll at h
    obtain ⟨id, g₁, hid, h₁⟩ := Resolving.yields_bind.1 h
    obtain ⟨t, ht, hputs⟩ := puts_of_resolve hg (hes e List.mem_cons_self) hid
    obtain ⟨ids', g₂, hids, h₂⟩ := Resolving.yields_bind.1 h₁
    obtain ⟨rfl, rfl⟩ := Resolving.yields_pure.1 h₂
    -- The rest is resolved in the graph that the first expression leaves; names mean the same
    -- there.
    have hg₁ : g₁.Built := (resolve_yields hg.consistent.firstDeclared_le hid).1.built hg
    have hrest : ∀ e ∈ rest, e.Plain := fun x hx => hes x (List.mem_cons_of_mem _ hx)
    obtain ⟨ts, hts, hadds, hmem, hterms⟩ := puts_of_resolveAll hg₁ hrest hids
    have hnames : ∀ path, PlainName path → g₁.names path = g.names path := fun path =>
      hg.names_eq hg₁ hputs.adds.carries fun id hid hnot => (hputs.adds.new id hid hnot).1
    rw [meanings?_congr hnames hrest] at hts
    refine ⟨t :: ts, meanings?_cons_eq_some.2 ⟨t, ts, ht, hts, rfl⟩, ?_, fun x hx => ?_, ?_⟩
    -- What is new belongs to the first expression or to one of the others.
    · exact (hputs.adds.mono fun u hu => ⟨t, List.mem_cons_self, hu⟩).trans
        (hadds.mono fun u ⟨v, hv, hu⟩ => ⟨v, List.mem_cons_of_mem _ hv, hu⟩)
    · rcases List.mem_cons.1 hx with rfl | hx
      · exact hadds.carries.places _ hputs.mem
      · exact hmem x hx
    · rw [List.map_cons, hadds.carries.term hputs.mem, hputs.term, hterms]

end

mutual

/-- An expression that means something is resolved. -/
theorem exists_resolve {g : TypeGraph} (hg : g.Built) {e : TypeExpr} (he : e.Plain) {t : TypeTerm}
    (h : e.meaning? g.names = some t) : ∃ id g', e.resolve.Yields g id g' := by
  obtain ⟨path, arguments, dims⟩ := e
  obtain ⟨hpath, hplain⟩ := he
  obtain ⟨raw, arity, ts, hraw, hts, happlies, -⟩ := meaning?_eq_some.1 h
  -- The path stands for a raw type, which takes as many arguments as there are.
  obtain ⟨rawId, hnamed, heq⟩ := Option.map_eq_some_iff.1 hraw
  obtain ⟨rfl, rfl⟩ := Prod.mk.inj heq
  obtain ⟨ids, g₁, hids⟩ := exists_resolveAll hg hplain hts
  obtain ⟨ts', hts', hadds, hmem, hterms⟩ := puts_of_resolveAll hg hplain hids
  -- The arguments are in the graph when it is applied to them.
  rw [hts, Option.some.injEq] at hts'
  have hrawMem := typeNamed?_mem hg.consistent.firstDeclared_le hnamed
  rw [hts', ← hterms, List.length_map, ← hadds.classBody? rawId hrawMem] at happlies
  obtain ⟨applied, g₂, happlied⟩ := exists_parameterized happlies
  obtain ⟨id, g₃, harrays⟩ := Resolving.exists_arrays applied dims g₂
  refine ⟨id, g₃, ?_⟩
  unfold TypeExpr.resolve
  exact Resolving.yields_bind.2 ⟨_, _, Resolving.yields_named hnamed,
    Resolving.yields_bind.2 ⟨_, _, hids,
      Resolving.yields_bind.2 ⟨_, _, Resolving.yields_parameterized happlied, harrays⟩⟩⟩

/-- Expressions that mean something are resolved. -/
theorem exists_resolveAll {g : TypeGraph} (hg : g.Built) {es : List TypeExpr}
    (hes : ∀ e ∈ es, e.Plain) {ts : List TypeTerm} (h : meanings? g.names es = some ts) :
    ∃ ids g', (resolveAll es).Yields g ids g' := by
  cases es with
  | nil =>
    refine ⟨[], g, ?_⟩
    unfold resolveAll
    exact Resolving.yields_pure.2 ⟨rfl, rfl⟩
  | cons e rest =>
    obtain ⟨t, others, ht, hothers, -⟩ := meanings?_cons_eq_some.1 h
    have hrest : ∀ e ∈ rest, e.Plain := fun x hx => hes x (List.mem_cons_of_mem _ hx)
    obtain ⟨id, g₁, hid⟩ := exists_resolve hg (hes e List.mem_cons_self) ht
    obtain ⟨_, _, hputs⟩ := puts_of_resolve hg (hes e List.mem_cons_self) hid
    have hg₁ : g₁.Built := (resolve_yields hg.consistent.firstDeclared_le hid).1.built hg
    -- Resolving declares no names, so the other texts mean what they did.
    have hnames : ∀ path, PlainName path → g₁.names path = g.names path := fun path =>
      hg.names_eq hg₁ hputs.adds.carries fun id hid hnot => (hputs.adds.new id hid hnot).1
    rw [← meanings?_congr hnames hrest] at hothers
    obtain ⟨ids, g₂, hids⟩ := exists_resolveAll hg₁ hrest hothers
    refine ⟨id :: ids, g₂, ?_⟩
    unfold resolveAll
    exact Resolving.yields_bind.2 ⟨_, _, hid,
      Resolving.yields_bind.2 ⟨_, _, hids, Resolving.yields_pure.2 ⟨rfl, rfl⟩⟩⟩

end

end TypeExpr

end GraphCodec
