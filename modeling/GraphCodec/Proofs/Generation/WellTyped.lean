import GraphCodec.Proofs.Codec.Leaves
import GraphCodec.Proofs.Fields
import GraphCodec.Proofs.Generation.Inheritance

/-!
# Well-typed values

`TypeGraph.WellTyped` says which values a type has, as far as they are written exactly: scalars that
are not floating-point, texts, variants of enums, sequences and maps of well-typed values, and
objects whose fields are those of their class and the classes above it.  Null stands aside: it is a
value of no type, and may stand wherever a container or a field can hold it.

A primitive field that is unset has the zero of its kind.  `TypeGraph.fillZeros` puts it there, at
any depth of a value.
-/

namespace GraphCodec

namespace TypeGraph

open Value

variable {g : TypeGraph} {id : TypeId}

/-! ### Zeros in fields -/

/-- The class of the program that has a name. -/
def classNamed? (g : TypeGraph) (name : String) : Option TypeId :=
  g.places.find? fun id => g.classify id = .userClass id && g.name id == name

/-- The field of a class under a name.  A field that is declared again hides the inherited one. -/
def field? (g : TypeGraph) (id : TypeId) (name : String) : Option Field :=
  (g.allFields id).reverse.find? (·.name == name)

/-- The value of an unset field, if the field is never null. -/
def zero? (g : TypeGraph) (f : Field) : Option Value :=
  match g.classify f.type with
  | .primitive s => some s.zero
  | _ => none

/-- The value that is put under the name of a field if there is none. -/
def zeroNamed? (g : TypeGraph) (id : TypeId) (name : String) : Option Value :=
  (g.field? id name).bind g.zero?

/-- Puts zero into a field that is never null, if it is unset. -/
def setZero (g : TypeGraph) (id : TypeId) (fields : List (String × Value)) (f : Field) :
    List (String × Value) :=
  match getField? fields f.name, g.zeroNamed? id f.name with
  | none, some zero => insertField fields f.name zero
  | _, _ => fields

/-- Puts zero into all unset fields of a class that are never null, inherited or not. -/
def setZeros (g : TypeGraph) (id : TypeId) (fields : List (String × Value)) :
    List (String × Value) :=
  (g.allFields id).foldl (g.setZero id) fields

mutual

/-- Puts zero into all unset fields that are never null, of the objects in a value at any depth. -/
def fillZeros (g : TypeGraph) (v : Value) : Value :=
  match v with
  | .sequence shape items => .sequence shape (g.fillItems items)
  | .map entries => .map (g.fillEntries entries)
  | .object typeName fields =>
    .object typeName <|
      match g.classNamed? typeName with
      | some id => g.setZeros id (g.fillFields fields)
      | none => g.fillFields fields
  | v => v

/-- Fills the elements of a sequence. -/
def fillItems (g : TypeGraph) (items : List Value) : List Value :=
  match items with
  | [] => []
  | v :: rest => g.fillZeros v :: g.fillItems rest

/-- Fills the keys and values of a map. -/
def fillEntries (g : TypeGraph) (entries : List (Value × Value)) : List (Value × Value) :=
  match entries with
  | [] => []
  | (k, v) :: rest => (g.fillZeros k, g.fillZeros v) :: g.fillEntries rest

/-- Fills the values of fields. -/
def fillFields (g : TypeGraph) (fields : List (String × Value)) : List (String × Value) :=
  match fields with
  | [] => []
  | (name, v) :: rest => (name, g.fillZeros v) :: g.fillFields rest

end

/-- Items are filled one by one. -/
theorem fillItems_eq_map (items : List Value) : g.fillItems items = items.map g.fillZeros := by
  induction items with
  | nil => rw [fillItems, List.map_nil]
  | cons v rest ih => rw [fillItems, ih, List.map_cons]

/-- Entries are filled key by key and value by value. -/
theorem fillEntries_eq_map (entries : List (Value × Value)) :
    g.fillEntries entries = entries.map fun e => (g.fillZeros e.1, g.fillZeros e.2) := by
  induction entries with
  | nil => rw [fillEntries, List.map_nil]
  | cons e rest ih =>
    obtain ⟨k, v⟩ := e
    rw [fillEntries, ih, List.map_cons]

/-- What is found in filled fields is filled. -/
theorem getField?_fillFields (fields : List (String × Value)) (name : String) :
    getField? (g.fillFields fields) name = (getField? fields name).map g.fillZeros := by
  induction fields with
  | nil => rw [fillFields]; rfl
  | cons f rest ih =>
    obtain ⟨k, v⟩ := f
    rw [fillFields, getField?_cons, getField?_cons, ih]
    split <;> rfl

/-- Filling values keeps the order of the fields. -/
theorem ascending_fillFields {fields : List (String × Value)} (h : Ascending fields) :
    Ascending (g.fillFields fields) := by
  -- The names stay the same.
  have hnames : (g.fillFields fields).map (·.1) = fields.map (·.1) := by
    clear h
    induction fields with
    | nil => rw [fillFields]
    | cons f rest ih =>
      obtain ⟨k, v⟩ := f
      rw [fillFields, List.map_cons, List.map_cons, ih]
  have hpairwise : (fields.map (·.1)).Pairwise (· < ·) := List.pairwise_map.2 h
  rw [← hnames] at hpairwise
  exact List.pairwise_map.1 hpairwise

/-- Filling leaves null as it is, and makes nothing null. -/
theorem isNull_fillZeros (v : Value) : (g.fillZeros v).isNull = v.isNull := by
  cases v <;> rfl

theorem fillZeros_null : g.fillZeros .null = .null := rfl

theorem fillZeros_string (s : String) : g.fillZeros (.string s) = .string s := rfl

theorem fillZeros_enum (typeName variant : String) :
    g.fillZeros (.enum typeName variant) = .enum typeName variant := rfl

/-- Filling leaves scalars as they are. -/
theorem fillZeros_of_admits {s : Scalar} {v : Value} (h : s.Admits v) : g.fillZeros v = v := by
  unfold Scalar.Admits at h
  split at h <;> first | rfl | exact h.elim

/-! ### What is found after zeros have been put -/

/-- Putting zeros into fields keeps them in order. -/
theorem ascending_setZeros {fields : List (String × Value)} (h : Ascending fields) :
    Ascending (g.setZeros id fields) := by
  unfold setZeros
  induction g.allFields id generalizing fields with
  | nil => exact h
  -- Each field puts in a zero or nothing.
  | cons f rest ih =>
    refine ih ?_
    unfold setZero
    split
    · exact h.insertField _ _
    · exact h

/-- Putting zero into one field only matters where nothing was. -/
private theorem getField?_setZero (fields : List (String × Value)) (f : Field) (name : String) :
    getField? (g.setZero id fields f) name =
      (getField? fields name).or (if name = f.name then g.zeroNamed? id name else none) := by
  unfold setZero
  split
  -- Nothing was found, so the zero is put in.
  case h_1 zero hnone hzero =>
    rw [getField?_insertField]
    by_cases heq : name = f.name
    · rw [if_pos heq, if_pos heq, heq, hnone, Option.none_or, hzero]
    · rw [if_neg heq, if_neg heq, Option.or_none]
  -- A value was found, or there is no zero for it.
  case h_2 hother =>
    by_cases heq : name = f.name
    · rw [if_pos heq, heq]
      cases hget : getField? fields f.name with
      | some v => rfl
      | none =>
        cases hzero : g.zeroNamed? id f.name with
        | none => rfl
        | some zero => exact absurd hzero (hother zero hget)
    · rw [if_neg heq, Option.or_none]

/-- A name without a field has no zero. -/
private theorem zeroNamed?_eq_none {name : String} (h : ∀ f ∈ g.allFields id, f.name ≠ name) :
    g.zeroNamed? id name = none := by
  have hnone : g.field? id name = none := by
    rw [field?, List.find?_eq_none]
    intro f hf
    rw [beq_iff_eq]
    exact h f (List.mem_reverse.1 hf)
  rw [zeroNamed?, hnone]
  rfl

/-- After putting in zeros, what was not found has the zero of its name. -/
theorem getField?_setZeros (fields : List (String × Value)) (name : String) :
    getField? (g.setZeros id fields) name =
      (getField? fields name).or (g.zeroNamed? id name) := by
  -- After some of the fields, the zeros of those are there.
  have hfold : ∀ (declared : List Field) (fields : List (String × Value)),
      getField? (declared.foldl (g.setZero id) fields) name =
        (getField? fields name).or
          (if ∃ f ∈ declared, f.name = name then g.zeroNamed? id name else none) := by
    intro declared
    induction declared with
    | nil =>
      intro fields
      rw [if_neg (fun ⟨f, hf, _⟩ => nomatch hf), Option.or_none]
      rfl
    | cons f rest ih =>
      intro fields
      rw [List.foldl_cons, ih, getField?_setZero, Option.or_assoc]
      congr 1
      have hcons : (∃ f' ∈ f :: rest, f'.name = name) ↔
          f.name = name ∨ ∃ f' ∈ rest, f'.name = name := by simp
      -- The first field has the name, or one of the others.
      by_cases heq : name = f.name
      · rw [if_pos heq, if_pos (hcons.2 (Or.inl heq.symm))]
        split
        · exact Option.or_self
        · exact Option.or_none
      · have hrest := hcons.trans (or_iff_right (Ne.symm heq))
        rw [if_neg heq, Option.none_or]
        exact (if_congr hrest rfl rfl).symm
  -- A name without a field has no zero.
  rw [setZeros, hfold]
  by_cases h : ∃ f ∈ g.allFields id, f.name = name
  · rw [if_pos h]
  · rw [if_neg h, zeroNamed?_eq_none fun f hf heq => h ⟨f, hf, heq⟩]

/-! ### Well-typed values -/

/-- Whether a class is one whose objects a declared class can hold: the class itself, if it has
instances of its own, or a concrete subtype. -/
def Holds (g : TypeGraph) (declared runtime : TypeId) : Prop :=
  runtime = declared ∧ g.isAbstract declared = false ∨ runtime ∈ g.concreteSubtypes declared

/-- The values of a type that are not null.  What may be null is left out where it is. -/
inductive WellTyped (g : TypeGraph) : TypeId → Value → Prop where
  | scalar {id : TypeId} {s : Scalar} {v : Value} :
    g.classify id = .primitive s ∨ g.classify id = .boxed s → s.Admits v → WellTyped g id v
  | string {id : TypeId} (s : String) :
    g.classify id = .string → WellTyped g id (.string s)
  | enum {id : TypeId} {variants : List String} {variant : String} :
    g.kind id = .enumType variants → variant ∈ variants →
      WellTyped g id (.enum (g.name id) variant)
  /-- The elements of a set differ, also after zeros have been put into their fields. -/
  | sequence {id element : TypeId} {shape : Shape} {items : List Value} :
    g.classify id = .sequence shape element →
      (∀ v ∈ items, v ≠ .null → WellTyped g element v) →
      (shape = .set → items.Pairwise fun a b => (g.fillZeros a).same (g.fillZeros b) = false) →
        WellTyped g id (.sequence shape items)
  /-- The keys differ, also after zeros have been put into their fields.  Only keys that are written
  in an array of their own may be null. -/
  | map {id key value : TypeId} {keys : MapKeys} {entries : List (Value × Value)} :
    g.classify id = .map key value keys →
      (∀ e ∈ entries, e.1 ≠ .null → WellTyped g key e.1) →
      (∀ e ∈ entries, e.2 ≠ .null → WellTyped g value e.2) →
      (keys ≠ .paired → ∀ e ∈ entries, e.1 ≠ .null) →
      (entries.Pairwise fun e e' => (g.fillZeros e.1).same (g.fillZeros e'.1) = false) →
        WellTyped g id (.map entries)
  /-- The fields that are set are fields of the class and hold values of their types, so none of
  them is null. -/
  | object {id declared runtime : TypeId} {fields : List (String × Value)} :
    g.classify id = .userClass declared → g.Holds declared runtime → Ascending fields →
      (∀ e ∈ fields, ∃ f ∈ g.allFields runtime, f.name = e.1) →
      (∀ e ∈ fields, ∀ f ∈ g.allFields runtime, f.name = e.1 → WellTyped g f.type e.2) →
        WellTyped g id (.object (g.name runtime) fields)

/-- A well-typed value is not null. -/
theorem WellTyped.isNull {v : Value} (h : g.WellTyped id v) : v.isNull = false := by
  cases h with
  | scalar _ h =>
    unfold Scalar.Admits at h
    split at h <;> first | rfl | exact h.elim
  | _ => rfl

/-- An enum is classified as one. -/
theorem classify_of_enumType {variants : List String} (h : g.kind id = .enumType variants) :
    g.classify id = .enum := by
  unfold classify
  rw [h]

/-! ### The keys of maps -/

/-- The keys of a map are written as its type of keys has it. -/
theorem classify_eq_map {key value : TypeId} {keys : MapKeys}
    (h : g.classify id = .map key value keys) : keys = g.mapKeys key := by
  -- Only applied types are maps, and `mapKeys` is asked for the keys of each.
  have happlied : ∀ {raw : TypeId} {arguments : List TypeId},
      g.classifyApplied raw arguments = .map key value keys → keys = g.mapKeys key := by
    intro raw arguments h
    unfold classifyApplied classifyClass at h
    repeat' split at h
    all_goals try contradiction
    cases h
    rfl
  unfold classify at h
  cases hk : g.kind id with
  | primitive p => cases p <;> simp [hk] at h
  | boxed s => simp [hk] at h
  | enumType variants => simp [hk] at h
  | arrayType component =>
    rw [hk] at h
    dsimp only [classifyArray] at h
    split at h <;> contradiction
  | parameterized raw arguments =>
    rw [hk] at h
    exact happlied h
  | classType body =>
    rw [hk] at h
    dsimp only [classifyClass] at h
    repeat' split at h
    all_goals contradiction
  | interfaceType body =>
    rw [hk] at h
    dsimp only [classifyClass] at h
    repeat' split at h
    all_goals contradiction

/-- Keys that are written as names and parsed are those of a scalar type. -/
theorem classify_of_mapKeys_eq_parsed {key : TypeId} {s : Scalar}
    (h : g.mapKeys key = .parsed s) :
    g.classify key = .primitive s ∨ g.classify key = .boxed s := by
  unfold mapKeys at h
  split at h
  case isTrue => cases h
  -- Only primitives and boxed types are scalars.
  case isFalse =>
    split at h
    case h_1 s' hscalar =>
      cases h
      unfold scalar? at hscalar
      unfold classify
      cases hk : g.kind key with
      | primitive p =>
        rw [hk] at hscalar
        cases p with
        | scalar s' =>
          cases hscalar
          exact Or.inl rfl
        | void => cases hscalar
      | boxed s' =>
        rw [hk] at hscalar
        cases hscalar
        exact Or.inr rfl
      | _ =>
        rw [hk] at hscalar
        cases hscalar
    case h_2 => cases h

/-- Keys that are written as they are are texts. -/
theorem LoadedGraph.classify_of_mapKeys_eq_text (hg : g.LoadedGraph) {key : TypeId}
    (h : g.mapKeys key = .text) : g.classify key = .string := by
  unfold mapKeys at h
  split at h
  -- The type is that of texts.
  case isTrue heq =>
    obtain ⟨body, hbody, -⟩ := hg.standard .string (by decide) (by decide)
    rw [heq, classify_of_classBody? hbody]
    rfl
  case isFalse => split at h <;> cases h

/-- A well-typed value of a scalar type is one that its kind admits. -/
theorem WellTyped.admits {s : Scalar} {v : Value}
    (hid : g.classify id = .primitive s ∨ g.classify id = .boxed s) (h : g.WellTyped id v) :
    s.Admits v := by
  cases h with
  | scalar hid' h =>
    -- A type is of one kind of scalars.
    have heq : ∀ {s s'}, g.classify id = .primitive s ∨ g.classify id = .boxed s →
        g.classify id = .primitive s' ∨ g.classify id = .boxed s' → s = s' := by
      intro s s' h h'
      cases h with
      | inl h => cases h' <;> simp_all
      | inr h => cases h' <;> simp_all
    exact heq hid hid' ▸ h
  | string _ h => cases hid <;> simp_all
  -- No other type is classified as a scalar.
  | enum h _ =>
    rw [classify_of_enumType h] at hid
    cases hid <;> contradiction
  | sequence h _ _ => cases hid <;> simp_all
  | map h _ _ _ _ => cases hid <;> simp_all
  | object h _ _ _ _ => cases hid <;> simp_all

/-- A well-typed text is one. -/
theorem WellTyped.exists_string {v : Value} (hid : g.classify id = .string)
    (h : g.WellTyped id v) : ∃ s, v = .string s := by
  -- No other type is classified as that of texts.
  cases h with
  | string s _ => exact ⟨s, rfl⟩
  | scalar h _ => cases h <;> simp_all
  | enum h _ =>
    rw [classify_of_enumType h] at hid
    cases hid
  | sequence h _ _ => simp_all
  | map h _ _ _ _ => simp_all
  | object h _ _ _ _ => simp_all

end TypeGraph

end GraphCodec
