import GraphCodec.Proofs.Decimal.Digits
import GraphCodec.Proofs.Generation.Identity
import GraphCodec.Proofs.Generation.Order
import GraphCodec.Proofs.Types.Renaming

/-!
# Identities that tell codecs apart

Names that differ can make the same identity, and an identity with a number can be the one that
another name makes.  So a type is registered under the first identity that is free: its own, or else
one with a number, counted from two on.  The numbered ones differ from each other, so among more of
them than there are records one is free (`Registry.exists_numberedIdentity`), and the search ends
there (`Registry.isFirstFree_freshIdentity`).

Each registration therefore keeps identities different and makes them identifiers
(`Registry.Identified`), and a unit tells its codecs apart under legal names
(`GeneratorConfig.identities_of_generate`).
-/

namespace GraphCodec

/-! ### The search for an identity -/

/-- An identity with a number in front of the suffix. -/
def numberedIdentity (typeName suffix : String) (n : Nat) : String :=
  codecIdentity typeName "" ++ "_" ++ Decimal.natText n ++ suffix

/-- Identities with different numbers differ. -/
private theorem numberedIdentity_injective (typeName suffix : String) :
    Function.Injective (numberedIdentity typeName suffix) := by
  intro m n h
  -- Stem and suffix are the same, and a number can be read back from its digits.
  have htext : Decimal.natText m = Decimal.natText n :=
    (String.append_right_inj _).1 ((String.append_left_inj suffix).1 h)
  have hdigits : Decimal.digitsOf m = Decimal.digitsOf n := String.ofList_injective htext
  rw [← Decimal.ofDigits_digitsOf m, hdigits, Decimal.ofDigits_digitsOf]

namespace Registry

variable {r : Registry} {typeName suffix identity : String}

/-- An identity is taken exactly if a record has it. -/
private theorem hasIdentity_eq_true :
    r.hasIdentity identity = true ↔ identity ∈ r.records.map CodecRecord.identity := by
  simp [hasIdentity]

/-- An identity is free exactly if no record has it. -/
private theorem hasIdentity_eq_false :
    r.hasIdentity identity = false ↔ identity ∉ r.records.map CodecRecord.identity := by
  rw [← hasIdentity_eq_true, Bool.not_eq_true]

/-- Whether an identity is the first free one for a type: its own, or, if that is taken, the one
with the least number from two on that is free. -/
inductive IsFirstFree (r : Registry) (typeName suffix : String) : String → Prop where
  | plain : r.hasIdentity (codecIdentity typeName suffix) = false →
    IsFirstFree r typeName suffix (codecIdentity typeName suffix)
  | numbered {n : Nat} : r.hasIdentity (codecIdentity typeName suffix) = true → 2 ≤ n →
    r.hasIdentity (numberedIdentity typeName suffix n) = false →
    (∀ m, 2 ≤ m → m < n → r.hasIdentity (numberedIdentity typeName suffix m) = true) →
    IsFirstFree r typeName suffix (numberedIdentity typeName suffix n)

/-- The first free identity is free. -/
private theorem IsFirstFree.hasIdentity (h : r.IsFirstFree typeName suffix identity) :
    r.hasIdentity identity = false := by
  cases h with
  | plain hfree => exact hfree
  | numbered _ _ hfree _ => exact hfree

/-- The first free identity is an identifier if the suffix is one. -/
private theorem IsFirstFree.isIdentifier (h : r.IsFirstFree typeName suffix identity)
    (hsuffix : IsIdentifier suffix) : IsIdentifier identity := by
  cases h with
  | plain => exact isIdentifier_codecIdentity typeName hsuffix
  | numbered => exact isIdentifier_numbered typeName _ hsuffix

/-- Of one more numbered identities than there are records, one is free. -/
theorem exists_numberedIdentity (r : Registry) (typeName suffix : String) :
    ∃ i < r.records.length + 1,
      r.hasIdentity (numberedIdentity typeName suffix (i + 2)) = false := by
  by_contra hnone
  push Not at hnone
  have hnodup : ((List.range (r.records.length + 1)).map fun i =>
      numberedIdentity typeName suffix (i + 2)).Nodup :=
    List.nodup_range.map fun i j h =>
      Nat.add_right_cancel (numberedIdentity_injective typeName suffix h)
  -- All of them would be identities of records, of which there are too few.
  have htaken : ((List.range (r.records.length + 1)).map fun i =>
      numberedIdentity typeName suffix (i + 2)) ⊆ r.records.map CodecRecord.identity := by
    intro identity hmem
    obtain ⟨i, hi, rfl⟩ := List.mem_map.1 hmem
    exact hasIdentity_eq_true.1 (Bool.eq_true_of_not_eq_false (hnone i (List.mem_range.1 hi)))
  have hlength := hnodup.length_le_of_subset htaken
  rw [List.length_map, List.length_map, List.length_range] at hlength
  omega

/-- The search ends at the first free identity. -/
theorem isFirstFree_freshIdentity (r : Registry) (typeName suffix : String) :
    r.IsFirstFree typeName suffix (r.freshIdentity typeName suffix) := by
  unfold freshIdentity
  dsimp only
  split
  -- The identity without a number is free.
  case isFalse hfree => exact .plain (Bool.eq_false_iff.2 hfree)
  case isTrue htaken =>
    have hsome : ((List.range (r.records.length + 1)).find? fun i =>
        !r.hasIdentity (numberedIdentity typeName suffix (i + 2))).isSome := by
      obtain ⟨i, hi, hfree⟩ := r.exists_numberedIdentity typeName suffix
      exact List.find?_isSome.2 ⟨i, List.mem_range.2 hi, by rw [hfree]; rfl⟩
    obtain ⟨i, hi⟩ := Option.isSome_iff_exists.1 hsome
    -- Among the numbered identities the first free one is the one found by its number.
    have hfind : (r.numberedIdentities typeName suffix).find? (fun i => !r.hasIdentity i) =
        some (numberedIdentity typeName suffix (i + 2)) := by
      unfold numberedIdentities
      rw [List.find?_map]
      exact congrArg (Option.map _) hi
    -- The search passes over the numbers below the one at which it ends.
    obtain ⟨hfree, -, hfirst⟩ := List.find?_range_eq_some.1 hi
    rw [hfind, Option.getD_some]
    refine .numbered htaken (by omega) (by simpa using hfree) fun m hm hlt => ?_
    have := hfirst (m - 2) (by omega)
    rwa [Bool.not_not, Nat.sub_add_cancel hm] at this

/-! ### Registration -/

/-- What holds of the identities that types have been registered under. -/
structure Identified (suffix : String) (r : Registry) : Prop where
  types : (r.records.map CodecRecord.type).Nodup
  identities : (r.records.map CodecRecord.identity).Nodup
  legal : IsIdentifier suffix → ∀ c ∈ r.records, IsIdentifier c.identity

private theorem identified_empty (suffix : String) : Registry.empty.Identified suffix :=
  ⟨List.nodup_nil, List.nodup_nil, fun _ _ hc => nomatch hc⟩

/-- A type is missing exactly if no record is of it. -/
theorem contains_eq_false {id : TypeId} :
    r.contains id = false ↔ id ∉ r.records.map CodecRecord.type := by
  simp [contains, record?]

/-- A type is registered exactly if a record is of it. -/
theorem contains_iff_mem {id : TypeId} :
    r.contains id = true ↔ id ∈ r.records.map CodecRecord.type := by
  rw [← not_iff_not, Bool.not_eq_true, contains_eq_false]

/-- A type that is registered under the first free identity is told apart from the others. -/
private theorem Identified.register (h : r.Identified suffix) (id : TypeId) (typeName : String) :
    (r.register id typeName (r.freshIdentity typeName suffix)).2.Identified suffix := by
  unfold Registry.register
  split
  -- The type is registered already, so nothing changes.
  case isTrue => exact h
  case isFalse hnew =>
    -- The identity is free and the type is new, so both can be added to those that differ.
    have hfirst := r.isFirstFree_freshIdentity typeName suffix
    have htype := contains_eq_false.1 (Bool.eq_false_iff.2 hnew)
    have hidentity := hasIdentity_eq_false.1 hfirst.hasIdentity
    constructor
    · rw [List.map_append]
      exact List.concat_eq_append ▸ h.types.concat htype
    · rw [List.map_append]
      exact List.concat_eq_append ▸ h.identities.concat hidentity
    -- A record was there before or is the new one.
    · intro hsuffix c hc
      rcases List.mem_append.1 hc with hc | hc
      · exact h.legal hsuffix c hc
      · rw [List.mem_singleton.1 hc]
        exact hfirst.isIdentifier hsuffix

end Registry

/-! ### Identities of a walk -/

/-- Leaving a type keeps what holds of identities. -/
private theorem Registry.Identified.leave {s : WalkState} {suffix : String}
    (h : s.registry.Identified suffix) (id : TypeId) :
    (s.leave id).registry.Identified suffix := by
  have hrecords : (s.leave id).registry.records = s.registry.records := WalkState.records_leave
  constructor
  · rw [hrecords]
    exact h.types
  · rw [hrecords]
    exact h.identities
  · rw [hrecords]
    exact h.legal

/-- What holds of identities holds at the end of a walk if it holds at its start. -/
private theorem Registry.Identified.walk {g : TypeGraph} {suffix : String} {agenda : List WalkStep}
    {s : WalkState} (h : s.registry.Identified suffix) :
    (walk g suffix agenda s).registry.Identified suffix :=
  walk_keeps (P := fun _ s => s.registry.Identified suffix) (fun h => h)
    (fun _ h => h.register _ _) (fun _ h => h) (fun h => h.leave _) h

/-! ### Identities of a unit -/

/-- The source for a plan under some identity. -/
def CodecPlan.sourceUnder (identity : String) : CodecPlan → Listing
  | .object p => p.source identity
  | .enum p => p.source identity

/-- The source of a plan is made for the identity that its name has. -/
theorem CodecPlan.source_eq_sourceUnder (p : CodecPlan) (n : Naming) :
    p.source n = p.sourceUnder (n.identity p.typeName) := by
  cases p <;> rfl

/-- The source that is emitted for a type with an identity carries that identity. -/
private theorem Naming.emit_of_lookup {n : Naming} {p : CodecPlan}
    (h : (n.identities.lookup p.typeName).isSome) :
    n.identities.lookup p.typeName = some (n.emit p).identity ∧
      (n.emit p).code = (p.sourceUnder (n.emit p).identity).render := by
  obtain ⟨identity, hlookup⟩ := Option.isSome_iff_exists.1 h
  have hidentity : n.identity p.typeName = identity := by
    rw [Naming.identity, hlookup, Option.getD_some]
  refine ⟨?_, ?_⟩
  · rw [hlookup, Naming.emit, hidentity]
  · rw [Naming.emit, CodecPlan.source_eq_sourceUnder]

namespace Registry

variable {r : Registry}

/-- The identities are those of the records. -/
theorem identities_perm (r : Registry) :
    r.identities.Perm (r.records.map fun c => (c.typeName, c.identity)) :=
  List.mergeSort_perm _ _

/-- The names in the identities are in strictly ascending order if they differ. -/
private theorem pairwise_lt_identities (h : (r.identities.map Prod.fst).Nodup) :
    (r.identities.map Prod.fst).Pairwise (· < ·) :=
  List.pairwise_lt_of_nodup (List.pairwise_map.2 (List.pairwise_mergeSort_name Prod.fst _)) h

end Registry

namespace GeneratorConfig

open TypeGraph

variable {g : TypeGraph} {roots : List TypeId} {c : GeneratorConfig} {u : GeneratedUnit}

/-- A walk tells the types that it registers apart. -/
private theorem identified_walk (c : GeneratorConfig) (g : TypeGraph) (roots : List TypeId) :
    (c.walk g roots).registry.Identified c.codecSuffix :=
  (Registry.identified_empty _).walk

/-- The types that have been registered are those in the generation order. -/
private theorem types_perm_order (hg : g.Consistent) (c : GeneratorConfig) (roots : List TypeId) :
    ((c.walk g roots).registry.records.map CodecRecord.type).Perm
      (c.walk g roots).registry.order := by
  have hinv := walkInvariant hg c roots
  refine (List.perm_ext_iff_of_nodup (identified_walk c g roots).types hinv.nodup).2 fun id => ?_
  rw [← Registry.contains_iff_mem]
  constructor
  -- A type that is registered has been left by the end of the walk, so it has its place.
  · exact fun hid => (hinv.left id hid).resolve_right fun hmem => nomatch hmem
  · exact hinv.order id

/-- The identities of a unit are those of the walk. -/
theorem identities_eq_of_generate (hu : c.generate g roots = .ok u) :
    u.identities = (c.walk g roots).registry.identities := by
  obtain ⟨r, hunit, hsame⟩ := eq_unit_of_generate hu
  rw [hunit]
  exact hsame

/-- The sources of a unit are emitted under its identities. -/
theorem sources_eq_of_generate (hu : c.generate g roots = .ok u) :
    u.sources = u.plans.map (Naming.emit ⟨c.tagMember, c.codecSuffix, u.identities⟩) := by
  obtain ⟨r, hunit, -⟩ := eq_unit_of_generate hu
  rw [hunit]
  rfl

/-- Identities are given to the types with plans. -/
theorem names_of_identities (hg : g.Consistent) (hu : c.generate g roots = .ok u) :
    (u.identities.map Prod.fst).Perm (u.plans.map CodecPlan.typeName) := by
  -- Records hold the names of their types, and the registered types are those in the order.
  have hnames : (c.walk g roots).registry.records.map CodecRecord.typeName =
      ((c.walk g roots).registry.records.map CodecRecord.type).map g.name := by
    rw [List.map_map]
    exact List.map_congr_left fun record hrecord =>
      ((walkInvariant hg c roots).records record hrecord).2
  rw [identities_eq_of_generate hu, typeNames_of_plans (generate_eq_ok hg hu).2.2]
  refine ((Registry.identities_perm _).map Prod.fst).trans ?_
  rw [List.map_map]
  show ((c.walk g roots).registry.records.map CodecRecord.typeName).Perm _
  rw [hnames]
  exact (types_perm_order hg c roots).map g.name

/-- The source of each plan carries the identity of the plan. -/
private theorem sources_of_generate (hg : g.Consistent) (hu : c.generate g roots = .ok u) :
    List.Forall₂ (fun plan source => source.typeName = plan.typeName ∧
      u.identities.lookup plan.typeName = some source.identity ∧
      source.code = (plan.sourceUnder source.identity).render) u.plans u.sources := by
  rw [sources_eq_of_generate hu]
  refine List.forall₂_map_right_iff.2 (List.forall₂_same.2 fun plan hplan => ⟨rfl, ?_⟩)
  -- The name of a plan is among those that have identities.
  obtain ⟨e, he, hname⟩ :=
    List.mem_map.1 ((names_of_identities hg hu).mem_iff.2 (List.mem_map_of_mem hplan))
  have hlookup : (u.identities.lookup plan.typeName).isSome :=
    List.lookup_isSome_iff.2 ⟨e, he, beq_iff_eq.2 hname.symm⟩
  exact Naming.emit_of_lookup (n := ⟨c.tagMember, c.codecSuffix, u.identities⟩) hlookup

/-- The search for an identity ends at the first one that no registered type has, and it is legal if
the suffix is.  So the identities of a unit have exactly the names of its plans as their keys, in
strictly ascending order, and they are different from each other; the source of each plan carries
the identity of the plan, and if the suffix is an identifier each identity is one, however the types
are called. -/
theorem identities_of_generate :
    (∀ (r : Registry) (typeName suffix : String),
      r.IsFirstFree typeName suffix (r.freshIdentity typeName suffix) ∧
      r.hasIdentity (r.freshIdentity typeName suffix) = false ∧
      (IsIdentifier suffix → IsIdentifier (r.freshIdentity typeName suffix))) ∧
    ∀ (g : TypeGraph) (c : GeneratorConfig) (roots : List TypeId) (u : GeneratedUnit), g.Built →
      c.generate g roots = .ok u →
      (u.identities.map Prod.fst).Perm (u.plans.map CodecPlan.typeName) ∧
      (u.identities.map Prod.fst).Pairwise (· < ·) ∧
      (u.identities.map Prod.snd).Nodup ∧
      List.Forall₂ (fun plan source => source.typeName = plan.typeName ∧
        u.identities.lookup plan.typeName = some source.identity ∧
        source.code = (plan.sourceUnder source.identity).render) u.plans u.sources ∧
      (IsIdentifier c.codecSuffix → ∀ e ∈ u.identities, IsIdentifier e.2) := by
  refine ⟨fun r typeName suffix => ?_, fun g c roots u hg hu => ?_⟩
  -- The first part says where the search for an identity ends.
  · have hfirst := r.isFirstFree_freshIdentity typeName suffix
    exact ⟨hfirst, hfirst.hasIdentity, hfirst.isIdentifier⟩
  -- The second part says this of the identities of a unit, which are those of the walk.
  · have hcons := hg.consistent
    have hnames := names_of_identities hcons hu
    have hwalk := identified_walk c g roots
    have hperm := (c.walk g roots).registry.identities_perm
    rw [← identities_eq_of_generate hu] at hperm
    refine ⟨hnames, ?_, ?_, sources_of_generate hcons hu, fun hsuffix e he => ?_⟩
    · -- Keys are sorted by name, and no two plans share one.
      rw [identities_eq_of_generate hu] at hnames ⊢
      exact Registry.pairwise_lt_identities (hnames.nodup_iff.2 (nodup_typeName hcons hu))
    -- The identities of a unit are those of the records in another order.
    · refine (hperm.map Prod.snd).nodup_iff.2 ?_
      rw [List.map_map]
      exact hwalk.identities
    · obtain ⟨record, hrecord, rfl⟩ := List.mem_map.1 (hperm.mem_iff.1 he)
      exact hwalk.legal hsuffix record hrecord

/-- The suffix of the standard settings is an identifier. -/
private theorem isIdentifier_standard : IsIdentifier standard.codecSuffix := by
  have hchars : ∀ c ∈ "_JsonCodec".toList, IsIdentifierChar c := by simp [IsIdentifierChar]
  exact ⟨hchars, '_', _, rfl, by decide⟩

/-- Two classes of a network have names that make one identity.  Their codecs have different
identities, and these are legal. -/
theorem identities_of_network :
    codecIdentity "n.d" "_JsonCodec" = codecIdentity "n$d" "_JsonCodec" ∧
    Example.networkGraph.Built ∧
    ∃ u, standard.generate Example.networkGraph [⟨36⟩] = .ok u ∧
      ∃ i j, ("n.d", i) ∈ u.identities ∧ ("n$d", j) ∈ u.identities ∧ i ≠ j ∧
        IsIdentifier i ∧ IsIdentifier j := by
  have hbuilt : Example.networkGraph.Built := Schema.built_of_load Schema.load_networkSchema
  obtain ⟨u, hu⟩ := exists_generate hbuilt.consistent standard supported_networkGraph
  obtain ⟨hkeys, -, hdiffer, -, hlegal⟩ := identities_of_generate.2 _ standard _ u hbuilt hu
  -- The names of the plans are those of the types in the generation order.
  have hnames : u.plans.map CodecPlan.typeName = ["Base", "n.d", "n$d"] := by
    rw [typeNames_of_plans (generate_eq_ok hbuilt.consistent hu).2.2]
    show (standard.order Example.networkGraph [⟨36⟩]).map _ = _
    rw [order_network]
    rfl
  have hmem : ∀ name ∈ ["Base", "n.d", "n$d"], ∃ i, (name, i) ∈ u.identities := by
    intro name hname
    obtain ⟨⟨_, i⟩, hi, rfl⟩ := List.mem_map.1 (hkeys.mem_iff.2 (hnames ▸ hname))
    exact ⟨i, hi⟩
  obtain ⟨i, hi⟩ := hmem "n.d" (by decide)
  obtain ⟨j, hj⟩ := hmem "n$d" (by decide)
  refine ⟨by decide, hbuilt, u, hu, i, j, hi, hj, ?_, hlegal isIdentifier_standard _ hi,
    hlegal isIdentifier_standard _ hj⟩
  -- One identity would belong to one name.
  rintro rfl
  have hsame := List.inj_on_of_nodup_map hdiffer hi hj rfl
  exact absurd (Prod.mk.inj hsame).1 (by decide)

end GeneratorConfig

end GraphCodec
