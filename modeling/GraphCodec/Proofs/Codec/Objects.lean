import GraphCodec.Proofs.Codec.ReadBack

/-!
# Objects are read back

An object is written by the codec of its own class, to which the codec of the declared class hands
it on, and the type that is written in front of its fields leads the reader to the same class
(`CodecTable.writerOf_eq`, `CodecTable.codecFor_eq`).  A field is found under the name of its member
if no other field of the class, and not the type either, has a member of that name; so every field
is read back from what was written for it (`CodecTable.readsBack_object`).
-/

namespace GraphCodec

/-! ### Finding subtypes -/

/-- The back half of a list of two names or more has a first name. -/
private theorem exists_back_half (n m : String) (rest : List String) :
    ∃ b bs, (n :: m :: rest).drop ((n :: m :: rest).length / 2) = b :: bs ∧
      ((n :: m :: rest).drop ((n :: m :: rest).length / 2)).headD n = b := by
  cases hdrop : (n :: m :: rest).drop ((n :: m :: rest).length / 2) with
  | nil =>
    -- The half would be the whole list, which has two elements.
    rw [List.drop_eq_nil_iff] at hdrop
    simp only [List.length_cons] at hdrop
    omega
  | cons b bs => exact ⟨b, bs, rfl, rfl⟩

/-- A name in an ascending list is found by halving the list. -/
theorem binarySearch_of_mem {names : List String} {name : String}
    (hsorted : names.Pairwise (· ≤ ·)) (h : name ∈ names) : binarySearch names name = true := by
  induction names using binarySearch.induct name with
  | case1 => cases h
  | case2 n =>
    rw [binarySearch, beq_iff_eq]
    exact (List.mem_singleton.1 h).symm
  -- The name is below the first one of the back half, so it stands in front.
  | case3 n m rest half back hlt ih =>
    obtain ⟨b, bs, hcons, hhead⟩ := exists_back_half n m rest
    have hlt' : name < b := hhead ▸ hlt
    rw [binarySearch, if_pos hlt]
    rw [← List.take_append_drop half (n :: m :: rest)] at hsorted h
    obtain ⟨hfront, hback, -⟩ := List.pairwise_append.1 hsorted
    refine ih hfront ((List.mem_append.1 h).resolve_right fun hmem => ?_)
    -- Everything in the back half is at least its first name.
    rw [hcons] at hback hmem
    cases List.mem_cons.1 hmem with
    | inl heq => exact String.lt_irrefl _ (heq ▸ hlt')
    | inr hmem =>
      have hle := (List.pairwise_cons.1 hback).1 name hmem
      exact String.not_lt.2 hle hlt'
  -- The name is not below the first one of the back half.
  | case4 n m rest half back hnlt ih =>
    obtain ⟨b, bs, hcons, hhead⟩ := exists_back_half n m rest
    have hle : b ≤ name := String.not_lt.1 (hhead ▸ hnlt)
    rw [binarySearch, if_neg hnlt]
    rw [← List.take_append_drop half (n :: m :: rest)] at hsorted h
    obtain ⟨-, hback, hcross⟩ := List.pairwise_append.1 hsorted
    refine ih hback ?_
    cases List.mem_append.1 h with
    | inl hmem =>
      -- What stands in front of the back half and not below it is its first name.
      have hb : b ∈ (n :: m :: rest).drop half := hcons ▸ List.mem_cons_self
      rw [String.le_antisymm (hcross name hmem b hb) hle]
      exact hb
    | inr hmem => exact hmem

namespace CodecTable

open Value

variable {t : CodecTable} {p q : ObjectPlan}

/-! ### Dispatch -/

/-- Whether objects of a class are written and read through the codec of another: it is that class,
or a subtype to which the other codec hands objects on. -/
def HandsOn (t : CodecTable) (p q : ObjectPlan) : Prop :=
  q = p ∨ q.typeName ≠ p.typeName ∧ p.knowsSubtype q.typeName ∧ t.object? q.typeName = some q

/-- An object is handed on to the class that writes it. -/
theorem writerOf_eq (h : t.HandsOn p q) : t.writerOf p q.typeName = .ok q := by
  unfold writerOf
  cases h with
  | inl heq =>
    rw [heq, if_neg fun hne => hne.1 rfl]
  | inr hsub =>
    rw [if_pos ⟨hsub.1, hsub.2.1⟩, object_eq_ok]
    exact hsub.2.2

/-- The type of an object, if it is written in front of the fields. -/
def tagMembers (t : CodecTable) (p : ObjectPlan) (typeName : String) : List (String × Json) :=
  if showsType p typeName then [(t.tagMember, .string typeName)] else []

/-- The first member has the name, or it is looked for behind it. -/
theorem member?_cons (name other : String) (j : Json) (members : List (String × Json)) :
    Json.member? ((name, j) :: members) other =
      if other = name then some j else Json.member? members other := by
  rw [Json.member?, List.lookup_cons, Json.member?]
  by_cases h : other = name
  · rw [if_pos h, beq_iff_eq.2 h]
  · rw [if_neg h, beq_eq_false_iff_ne.2 h]

/-- The type in front of the fields leads to the class that wrote them. -/
theorem codecFor_eq (h : t.HandsOn p q) (members : List (String × Json)) :
    t.codecFor p (t.tagMembers p q.typeName ++ members) = .ok q := by
  cases h with
  | inl heq =>
    -- The type of the declared class itself, if it is shown, leads nowhere else.
    subst heq
    have hnone : t.subtypeFor? q (t.tagMembers q q.typeName ++ members) = none := by
      -- The tag is only read if the class has subtypes.
      unfold subtypeFor?
      split
      case isTrue hsub =>
        have hshows : showsType q q.typeName = true := by simp [showsType, hsub]
        have htag : t.tagMembers q q.typeName = [(t.tagMember, .string q.typeName)] :=
          if_pos hshows
        rw [htag, List.singleton_append, member?_cons, if_pos rfl]
        show (if _ then _ else _) = _
        rw [if_neg fun hne => hne.1 rfl]
      case isFalse => rfl
    rw [codecFor, hnone]
  | inr hsub =>
    obtain ⟨hne, hknows, hobject⟩ := hsub
    -- A class that knows a subtype has one.
    have hsubtypes : p.hasSubtypes = true := by
      rw [ObjectPlan.hasSubtypes]
      cases hs : p.subtypes with
      | nil =>
        rw [ObjectPlan.knowsSubtype, hs, binarySearch] at hknows
        cases hknows
      | cons _ _ => rfl
    have hshows : showsType p q.typeName = true := if_pos ⟨hne, hknows⟩
    have htag : t.tagMembers p q.typeName = [(t.tagMember, .string q.typeName)] :=
      if_pos hshows
    -- The tag is the first member, and it names the subtype.
    have hsome : t.subtypeFor? p (t.tagMembers p q.typeName ++ members) = some q.typeName := by
      rw [htag, List.singleton_append, subtypeFor?, if_pos hsubtypes, member?_cons, if_pos rfl]
      exact if_pos ⟨hne, hknows⟩
    rw [codecFor, hsome]
    exact object_eq_ok.2 hobject

/-- An object is handed on to a known subtype or not at all. -/
theorem handsOn_of_codecFor {members : List (String × Json)} (h : t.codecFor p members = .ok q) :
    t.HandsOn p q := by
  unfold codecFor at h
  split at h
  -- The tag named a known subtype, which was found.
  case h_1 name hname =>
    have hobject := object_eq_ok.1 h
    have htype : q.typeName = name := by simpa using List.find?_some hobject
    subst htype
    obtain ⟨hne, hknows⟩ := knowsSubtype_of_subtypeFor? hname
    exact Or.inr ⟨hne, hknows, hobject⟩
  -- No subtype was named, so the class itself reads.
  case h_2 =>
    cases h
    exact Or.inl rfl

/-! ### Fields -/

/-- The member for a field is found among those for all fields. -/
private theorem member?_flatMap {plans : List FieldPlan} (m : FieldPlan → Option Json)
    (hnodup : (plans.map (·.wireName)).Nodup) {f : FieldPlan} (hf : f ∈ plans) :
    Json.member? (plans.flatMap fun f => ((m f).map (f.wireName, ·)).toList) f.wireName = m f := by
  induction plans with
  | nil => cases hf
  | cons g rest ih =>
    rw [List.map_cons, List.nodup_cons] at hnodup
    -- Behind its place, no member has the name of the first field.
    have hfirst : Json.member? (rest.flatMap fun f => ((m f).map (f.wireName, ·)).toList)
        g.wireName = none := by
      rw [Json.member?, List.lookup_eq_none_iff]
      intro e he
      obtain ⟨f, hf, he⟩ := List.mem_flatMap.1 he
      obtain ⟨j, -, rfl⟩ := Option.map_eq_some_iff.1 (Option.mem_toList.1 he)
      rw [bne_iff_ne]
      exact fun heq => hnodup.1 (heq ▸ List.mem_map_of_mem hf)
    rw [List.flatMap_cons]
    -- The field is the first one, or it stands in the rest.
    cases List.mem_cons.1 hf with
    | inl heq =>
      subst heq
      cases hm : m f with
      | none => exact hfirst
      | some j =>
        show Json.member? ((f.wireName, j) :: _) _ = _
        rw [member?_cons, if_pos rfl]
    | inr hf =>
      -- The member of the first field, if there is one, has another name.
      have hne : f.wireName ≠ g.wireName := fun heq => hnodup.1 (heq ▸ List.mem_map_of_mem hf)
      cases hm : m g with
      | none => exact ih hnodup.2 hf
      | some j =>
        show Json.member? ((g.wireName, j) :: _) _ = _
        rw [member?_cons, if_neg hne]
        exact ih hnodup.2 hf

/-- What a field is read back as: the value in it, or that of a field that is unset. -/
def fieldBack (back : Value → Value) (fields : List (String × Value)) (f : FieldPlan) : Value :=
  match getField? fields f.name with
  | some v => back v
  | none => fieldValue f .null

/-- A value that is not null stays in a field. -/
theorem fieldValue_of_isNull {v : Value} (f : FieldPlan) (h : v.isNull = false) :
    fieldValue f v = v := by
  rw [fieldValue]
  cases f.encoding.primitive? with
  | none => rfl
  | some s =>
    show s.orZero v = v
    rw [Scalar.orZero, h, if_neg Bool.false_ne_true]

theorem Scalar.isNull_zero (s : Scalar) : s.zero.isNull = false := by
  cases s <;> rfl

/-- A field is read back from the member that was written for it, or from a missing one. -/
private theorem exists_member (back : Value → Value) {fields : List (String × Value)}
    (f : FieldPlan) (h : ∀ v, getField? fields f.name = some v →
      v.isNull = false ∧ (back v).isNull = false ∧ t.ReadsBack f.encoding.codec v (back v)) :
    ∃ m : Option Json,
      encodeField (fun name => (t.encodeFields fields).lookup name) f =
        .ok (m.map (f.wireName, ·)) ∧
      ∀ members, Json.member? members f.wireName = m.map Json.reread →
        t.readField members f = .ok (f.name, fieldBack back fields f) := by
  unfold encodeField readField fieldBack
  simp only [lookup_encodeFields]
  cases hv : getField? fields f.name with
  -- A field that is set has a member, and is read from it.
  | some v =>
    obtain ⟨hnull, hback, j, hj, hread⟩ := h v hv
    rw [encodeJson_of_isNull hnull] at hj
    refine ⟨some j, ?_, fun members hm => ?_⟩
    · simp only [Option.map_some, hj]
      rfl
    · simp only [hm, Option.map_some, hread, Except.map, fieldValue_of_isNull f hback]
  | none =>
    cases hp : f.encoding.primitive? with
    -- A primitive field that is unset is written as zero.
    | some s =>
      obtain ⟨j, hj, hread⟩ := Scalar.exists_encode_zero s
      have hcodec : f.encoding.codec = .scalar s := by
        cases he : f.encoding with
        | primitive s' =>
          rw [he] at hp
          cases hp
          rfl
        | _ =>
          rw [he] at hp
          cases hp
      have hunset : fieldValue f .null = s.zero := by
        rw [fieldValue, hp]
        rfl
      refine ⟨some j, ?_, fun members hm => ?_⟩
      · simp only [Option.map_none, hj]
        rfl
      · simp only [hm, Option.map_some, hcodec, decodeJson, hread, Except.map, hunset,
          fieldValue_of_isNull f (Scalar.isNull_zero s)]
    -- Any other field that is unset has no member, and is read as unset.
    | none =>
      refine ⟨none, rfl, fun members hm => ?_⟩
      simp only [hm, Option.map_none]

/-! ### Objects -/

/-- The tag of an object is reread as it is, and the members of its fields with their values
reread. -/
private theorem rereadMembers_tagged (p : ObjectPlan) (typeName : String) (plans : List FieldPlan)
    (m : FieldPlan → Option Json) :
    Json.rereadMembers (t.tagMembers p typeName ++
        plans.flatMap fun f => ((m f).map (f.wireName, ·)).toList) =
      t.tagMembers p typeName ++
        plans.flatMap fun f => (((m f).map Json.reread).map (f.wireName, ·)).toList := by
  rw [Json.rereadMembers_eq_map, List.map_append, List.map_flatMap]
  congr 1
  -- The tag is a string, which reads back as itself.
  · unfold tagMembers
    split <;> rfl
  -- A field without a member stays without one.
  · congr 1
    funext f
    cases m f <;> rfl

/-- The member of a field is found behind the tag, if the members have names of their own. -/
private theorem member?_tagged {plans : List FieldPlan} {f : FieldPlan} (typeName : String)
    (m : FieldPlan → Option Json) (hnodup : (plans.map (·.wireName)).Nodup)
    (htag : t.tagMember ∉ plans.map (·.wireName)) (hf : f ∈ plans) :
    Json.member? (t.tagMembers p typeName ++
      plans.flatMap fun f => ((m f).map (f.wireName, ·)).toList) f.wireName = m f := by
  rw [← member?_flatMap m hnodup hf]
  unfold tagMembers
  -- The tag is shown or not, but it has a name of its own.
  split
  case isTrue =>
    have hne : f.wireName ≠ t.tagMember := fun heq => htag (heq ▸ List.mem_map_of_mem hf)
    rw [List.singleton_append, member?_cons, if_neg hne]
  case isFalse => rfl

/-- An object is read back field by field, if the members of its fields have names of their own. -/
theorem readsBack_object {name : String} {plans : List FieldPlan} {back : Value → Value}
    {fields : List (String × Value)} (hp : t.object? name = some p) (hhands : t.HandsOn p q)
    (hconcrete : q.isAbstract = false) (hchain : t.chainFields q = .ok plans)
    (hnodup : (plans.map (·.wireName)).Nodup) (htag : t.tagMember ∉ plans.map (·.wireName))
    (h : ∀ f ∈ plans, ∀ v, getField? fields f.name = some v →
      v.isNull = false ∧ (back v).isNull = false ∧ t.ReadsBack f.encoding.codec v (back v)) :
    t.ReadsBack (.generated name) (.object q.typeName fields)
      (.object q.typeName (assign [] (plans.map fun f => (f.name, fieldBack back fields f)))) := by
  -- Fields are written one by one, and each is read back from the member that it has.
  have hmembers := fun f hf => exists_member (t := t) back f (h f hf)
  choose! m hencode hread using hmembers
  have hall : encodeMembers (fun name => (t.encodeFields fields).lookup name) plans =
      .ok (plans.flatMap fun f => ((m f).map (f.wireName, ·)).toList) := by
    rw [encodeMembers_eq, Except.mapM_eq_map hencode]
    show Except.ok ((plans.map _).flatMap _) = _
    rw [List.flatMap_map]
  refine ⟨.object (t.tagMembers p q.typeName ++
    plans.flatMap fun f => ((m f).map (f.wireName, ·)).toList), ?_, ?_⟩
  -- The object is written by the class it is handed on to, the tag in front of its members.
  · rw [encodeJson_of_isNull rfl, encodeNonNull_object_eq_ok hp]
    refine ⟨q.typeName, fields, rfl, ?_⟩
    rw [encodeDispatched_eq, writerOf_eq hhands]
    show t.encodeUndispatched q _ _ _ = _
    rw [encodeUndispatched, hchain]
    show (encodeMembers _ plans >>= _) = _
    rw [hall]
    rfl
  -- The tag leads back to that class, and every field finds its member behind the tag.
  · rw [Json.reread, rereadMembers_tagged, decodeJson_generated hp, codecFor_eq hhands]
    show t.decodeAs q _ = _
    rw [decodeAs, hconcrete, if_neg Bool.false_ne_true, hchain]
    have hfields : plans.mapM (t.readField (t.tagMembers p q.typeName ++
        plans.flatMap fun f => (((m f).map Json.reread).map (f.wireName, ·)).toList)) =
          .ok (plans.map fun f => (f.name, fieldBack back fields f)) :=
      Except.mapM_eq_map fun f hf =>
        hread f hf _ (member?_tagged _ (fun f => (m f).map Json.reread) hnodup htag hf)
    show (plans.mapM (t.readField _) >>= _) = _
    rw [hfields]
    rfl

end CodecTable

end GraphCodec
