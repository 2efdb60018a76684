import GraphCodec.Proofs.Codec.Objects

/-!
# What decoding an object depends on

An object of a declared class is read by looking members up by name, the first one of each name: the
tag, and the fields of the class that the tag selects, inherited ones included
(`CodecTable.LooksAt`).  So two objects that have the same first members under these names are read
alike, as the same value or with the same error, and nothing else about the members matters: not
their order, not members of other names, and not what stands behind the first member of a name
(`CodecTable.decodeNamed_eq_of_agree`).
-/

namespace GraphCodec

/-! ### First members -/

namespace Json

variable {members others before between behind : List (String × Json)} {name : String} {j : Json}

/-- Members are looked up in the front part first. -/
theorem member?_append (members others : List (String × Json)) (name : String) :
    member? (members ++ others) name = (member? members name).or (member? others name) :=
  List.lookup_append

/-- A name is not found exactly if no member has it. -/
theorem member?_eq_none : member? members name = none ↔ name ∉ members.map (·.1) := by
  rw [member?, List.lookup_eq_none_iff, List.mem_map]
  constructor
  · rintro h ⟨m, hm, rfl⟩
    exact absurd (h m hm) (by simp)
  · intro h m hm
    exact bne_iff_ne.2 fun heq => h ⟨m, hm, heq.symm⟩

/-- Among members of different names each is the first one of its name. -/
private theorem member?_eq_some (hnodup : (members.map (·.1)).Nodup) :
    member? members name = some j ↔ (name, j) ∈ members := by
  refine ⟨mem_of_member?, fun h => ?_⟩
  obtain ⟨k, hk⟩ : ∃ k, member? members name = some k := by
    rw [← Option.isSome_iff_exists, Option.isSome_iff_ne_none, ne_eq, member?_eq_none, not_not]
    exact List.mem_map_of_mem h
  rw [hk, (Prod.mk.inj (List.inj_on_of_nodup_map hnodup (mem_of_member? hk) h rfl)).2]

/-- The order of members of different names does not matter. -/
private theorem member?_perm (h : members.Perm others) (hnodup : (members.map (·.1)).Nodup)
    (name : String) : member? members name = member? others name := by
  have hnodup' : (others.map (·.1)).Nodup := (h.map _).nodup_iff.1 hnodup
  refine Option.ext fun j => ?_
  rw [member?_eq_some hnodup, member?_eq_some hnodup', h.mem_iff]

/-- A member can be moved behind members of other names. -/
private theorem member?_move (h : name ∉ between.map (·.1)) (other : String) :
    member? (before ++ (name, j) :: between ++ behind) other =
      member? (before ++ between ++ (name, j) :: behind) other := by
  simp only [List.append_assoc, List.cons_append, member?_append, CodecTable.member?_cons]
  split
  case isTrue hname =>
    rw [hname, member?_eq_none.2 h, Option.none_or]
  case isFalse => rfl

/-- A member is not seen under other names. -/
theorem member?_insert_of_ne {other : String} (h : other ≠ name) :
    member? (before ++ (name, j) :: behind) other = member? (before ++ behind) other := by
  rw [member?_append, member?_append, CodecTable.member?_cons, if_neg h]

/-- A member behind another of its name is not seen. -/
private theorem member?_insert_of_mem (h : name ∈ before.map (·.1)) (other : String) :
    member? (before ++ (name, j) :: behind) other = member? (before ++ behind) other := by
  by_cases hname : other = name
  · obtain ⟨k, hk⟩ := Option.ne_none_iff_exists'.1 fun hnone => member?_eq_none.1 hnone h
    rw [hname, member?_append, member?_append, hk, Option.some_or, Option.some_or]
  · exact member?_insert_of_ne hname

end Json

namespace CodecTable

variable {t : CodecTable} {p q : ObjectPlan} {f : FieldPlan} {members others : List (String × Json)}

/-! ### The fields of a class -/

/-- Whether a class has a field, of its own or from a class above it. -/
inductive HasField (t : CodecTable) : ObjectPlan → FieldPlan → Prop where
  | own {p : ObjectPlan} {f : FieldPlan} (h : f ∈ p.fields) : HasField t p f
  | inherited {p q : ObjectPlan} {f : FieldPlan} {above : String}
    (hsuper : p.superclass = some above) (hq : t.object? above = some q) (h : HasField t q f) :
    HasField t p f

/-- The classes of a chain have no other fields than the class at its end. -/
private theorem hasField_of_chainWithin {steps : Nat} {plans : List ObjectPlan}
    (h : t.chainWithin steps p = .ok plans) (hq : q ∈ plans) (hf : f ∈ q.fields) :
    t.HasField p f := by
  -- The steps bound the chain, so the induction is on them, for a class anywhere in it.
  induction steps generalizing p plans with
  | zero =>
    cases h
    cases List.mem_singleton.1 hq
    exact .own hf
  -- The chain of a superclass is one step shorter.
  | succ steps ih =>
    rw [chainWithin] at h
    split at h
    case h_1 =>
      cases h
      cases List.mem_singleton.1 hq
      exact .own hf
    case h_2 above hsuper =>
      obtain ⟨r, hr, h⟩ := Except.bind_eq_ok.1 h
      obtain ⟨chain, hchain, h⟩ := Except.bind_eq_ok.1 h
      cases h
      -- The class is one of the superclass's chain or the class itself.
      rcases List.mem_append.1 hq with hq | hq
      · exact .inherited hsuper (object_eq_ok.1 hr) (ih hchain hq)
      · cases List.mem_singleton.1 hq
        exact .own hf

/-- The fields of a class are fields of it, inherited ones included. -/
private theorem hasField_of_chainFields {fields : List FieldPlan} (h : t.chainFields p = .ok fields)
    (hf : f ∈ fields) : t.HasField p f := by
  obtain ⟨plans, hplans, rfl⟩ := Except.map_eq_ok.1 h
  obtain ⟨q, hq, hf⟩ := List.mem_flatMap.1 hf
  exact hasField_of_chainWithin hplans hq hf

/-! ### Names that are looked up -/

/-- Whether reading an object of a declared class looks up the members of a name: the tag, or a
field of the class or of a subtype to which it hands objects on. -/
inductive LooksAt (t : CodecTable) (p : ObjectPlan) : String → Prop where
  | tag : LooksAt t p t.tagMember
  | field {q : ObjectPlan} {f : FieldPlan} (hq : t.HandsOn p q) (hf : t.HasField q f) :
    LooksAt t p f.wireName

/-- A field of a class of the table is one that some class of the table has of its own. -/
private theorem exists_own_field (h : t.HasField p f) (hp : p ∈ t.objects) :
    ∃ q ∈ t.objects, f ∈ q.fields := by
  induction h with
  | own hf => exact ⟨_, hp, hf⟩
  | inherited _ hq _ ih => exact ih (mem_objects_of_object? hq)

/-- No name is looked up that is neither the tag nor in a class of the table. -/
private theorem eq_tag_or_exists_of_looksAt {n : String} (h : t.LooksAt p n) (hp : p ∈ t.objects) :
    n = t.tagMember ∨ ∃ q ∈ t.objects, ∃ f ∈ q.fields, f.wireName = n := by
  cases h with
  | tag => exact Or.inl rfl
  | field hq hf =>
    have hmem := hq.elim (fun heq => heq ▸ hp) fun hsub => mem_objects_of_object? hsub.2.2
    obtain ⟨r, hr, hown⟩ := exists_own_field hf hmem
    exact Or.inr ⟨r, hr, _, hown, rfl⟩

/-- The class that reads an object depends on the tag only. -/
private theorem codecFor_congr
    (h : Json.member? members t.tagMember = Json.member? others t.tagMember) :
    t.codecFor p members = t.codecFor p others := by
  simp only [codecFor, subtypeFor?, h]

/-- What a field is read as depends on its member only. -/
private theorem readField_congr
    (h : Json.member? members f.wireName = Json.member? others f.wireName) :
    t.readField members f = t.readField others f := by
  simp only [readField, h]

/-- An object of a class is read from the members for its fields only. -/
private theorem decodeAs_congr (h : ∀ f, t.HasField p f →
      Json.member? members f.wireName = Json.member? others f.wireName) :
    t.decodeAs p members = t.decodeAs p others := by
  rw [decodeAs, decodeAs]
  -- The chain of the class does not depend on the members.
  cases hfields : t.chainFields p with
  | error e => rfl
  | ok fields =>
    have hread : fields.mapM (t.readField members) =
        fields.mapM (t.readField others) :=
      Except.mapM_congr fun f hf =>
        readField_congr (h f (hasField_of_chainFields hfields hf))
    show (if p.isAbstract then _ else (fields.mapM (t.readField members) >>= _)) = _
    rw [hread]
    rfl

/-- An object of a declared class is read from the first members of the names that are looked up. -/
private theorem decodeNamed_congr {name : String} (hp : t.object? name = some p)
    (h : ∀ n, t.LooksAt p n → Json.member? members n = Json.member? others n) :
    t.decodeNamed name (.object members) = t.decodeNamed name (.object others) := by
  rw [decodeNamed, decodeNamed, decodeJson_generated hp, decodeJson_generated hp,
    codecFor_congr (h _ .tag)]
  cases hq : t.codecFor p others with
  | error e => rfl
  | ok q => exact decodeAs_congr fun f hf => h _ (.field (handsOn_of_codecFor hq) hf)

/-- Objects with the same first members under the names that are looked up are read alike, as the
same value or with the same error.  So members of different names can be put in any order, the tag
can be moved past any members that are no tags, and a member can be put anywhere if its name is not
looked up or stands in front of it already. -/
theorem decodeNamed_eq_of_agree {name : String} (hp : t.object? name = some p) :
    (∀ members others,
        (∀ n, t.LooksAt p n → Json.member? members n = Json.member? others n) →
          t.decodeNamed name (.object members) = t.decodeNamed name (.object others)) ∧
      (∀ members others, members.Perm others → (members.map (·.1)).Nodup →
        t.decodeNamed name (.object members) = t.decodeNamed name (.object others)) ∧
      (∀ before between behind j, t.tagMember ∉ between.map (·.1) →
        t.decodeNamed name (.object (before ++ (t.tagMember, j) :: between ++ behind)) =
          t.decodeNamed name (.object (before ++ between ++ (t.tagMember, j) :: behind))) ∧
      ∀ before behind n j, ¬t.LooksAt p n ∨ n ∈ before.map (·.1) →
        t.decodeNamed name (.object (before ++ (n, j) :: behind)) =
          t.decodeNamed name (.object (before ++ behind)) := by
  -- Each part is an instance of the congruence, by what it changes about first members.
  refine ⟨fun _ _ => decodeNamed_congr hp, ?_, ?_, ?_⟩
  · intro members others hperm hnodup
    exact decodeNamed_congr hp fun n _ => Json.member?_perm hperm hnodup n
  · intro before between behind j htag
    exact decodeNamed_congr hp fun n _ => Json.member?_move htag n
  · rintro before behind n j (hn | hn)
    · exact decodeNamed_congr hp fun m hm => Json.member?_insert_of_ne fun heq => hn (heq ▸ hm)
    · exact decodeNamed_congr hp fun m _ => Json.member?_insert_of_mem hn m

/-- Two sorts of pets with names, and dogs with an age besides. -/
def shelter : CodecTable :=
  ofPlans "kind" [.object ⟨"Pet", true, none, ["Cat", "Dog"], [⟨"name", "name", false, .string⟩]⟩,
    .object ⟨"Cat", false, some "Pet", [], []⟩,
    .object ⟨"Dog", false, some "Pet", [], [⟨"age", "age", false, .primitive .int⟩]⟩]

/-- A dog whose tag comes last and whose age is there twice, with a member that no pet has. -/
theorem decodeNamed_dog :
    shelter.decodeNamed "Pet" (.object [("age", .number (.integer 3)), ("chip", .bool true),
        ("name", .string "Rex"), ("age", .string "three"), ("kind", .string "Dog")]) =
      .ok (.object "Dog" [("age", .int 3), ("name", .string "Rex")]) := by
  -- The declared type of the dog is an abstract class with two subtypes.
  have hpet : shelter.object? "Pet" =
      some ⟨"Pet", true, none, ["Cat", "Dog"], [⟨"name", "name", false, .string⟩]⟩ := by
    decide +kernel
  obtain ⟨-, hperm, hmove, hinsert⟩ := decodeNamed_eq_of_agree hpet
  have hchip := fun h => eq_tag_or_exists_of_looksAt (n := "chip") h (mem_objects_of_object? hpet)
  have hread : shelter.decodeNamed "Pet" (.object [("kind", .string "Dog"),
      ("name", .string "Rex"), ("age", .number (.integer 3))]) =
        .ok (.object "Dog" [("age", .int 3), ("name", .string "Rex")]) := by cbv
  -- What the object has besides is taken out, and what is left is put into order.
  have hnone := hinsert [("age", .number (.integer 3))]
    [("name", .string "Rex"), ("age", .string "three"), ("kind", .string "Dog")]
    "chip" (.bool true) (Or.inl fun h => absurd (hchip h) (by decide +kernel))
  have htwice := hinsert [("age", .number (.integer 3)), ("name", .string "Rex")]
    [("kind", .string "Dog")] "age" (.string "three") (Or.inr (by decide))
  have hlast := hmove [] [("age", .number (.integer 3)), ("name", .string "Rex")] []
    (.string "Dog") (by decide +kernel)
  have horder := hperm
    [("kind", .string "Dog"), ("age", .number (.integer 3)), ("name", .string "Rex")] _
    (.cons _ (.swap _ _ _)) (by decide)
  exact hnone.trans (htwice.trans (hlast.symm.trans (horder.trans hread)))

end CodecTable

end GraphCodec
