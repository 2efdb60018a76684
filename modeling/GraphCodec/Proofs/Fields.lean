import GraphCodec.Codec.Decode
import GraphCodec.Proofs.Values

/-!
# The fields of objects

The fields of an object stand in ascending order of name (`Value.Ascending`), whatever is set or
cleared.  So an object is known by what is found in its fields (`Value.Ascending.ext`): setting a
field changes what is found under its name and nothing else, and of several values that are set
under one name the last one stays (`CodecTable.getField?_assign`).
-/

namespace GraphCodec

namespace Value

variable {fields : List (String × Value)} {name other : String} {v : Value}

/-- Whether fields stand in ascending order of name. -/
def Ascending (fields : List (String × Value)) : Prop :=
  fields.Pairwise fun a b => a.1 < b.1

instance (fields : List (String × Value)) : Decidable (Ascending fields) :=
  inferInstanceAs (Decidable (fields.Pairwise fun a b => a.1 < b.1))

/-- The value itself, if it is not null. -/
def present? (v : Value) : Option Value := if v.isNull then none else some v

theorem isNull_iff : v.isNull = true ↔ v = .null := by
  cases v <;> simp [isNull]

/-! ### What is found after a change -/

/-- The first field is found under its name and hides no other. -/
theorem getField?_cons (k : String) (w : Value) (rest : List (String × Value)) :
    getField? ((k, w) :: rest) name = if name = k then some w else getField? rest name := by
  rw [getField?, List.lookup_cons, getField?]
  by_cases h : name = k
  · rw [if_pos h, beq_iff_eq.2 h]
  · rw [if_neg h, beq_eq_false_iff_ne.2 h]

/-- An inserted field is found under its name, and what is found elsewhere does not change. -/
theorem getField?_insertField :
    getField? (insertField fields name v) other =
      if other = name then some v else getField? fields other := by
  induction fields with
  | nil => rw [insertField, getField?_cons]
  | cons f rest ih =>
    obtain ⟨k, w⟩ := f
    rw [insertField]
    split
    -- In front of a greater name.
    case isTrue => rw [getField?_cons]
    case isFalse =>
      split
      case isTrue hk =>
        -- In the place of the field with the same name.
        rw [getField?_cons, getField?_cons, hk]
        by_cases h : other = k
        · rw [if_pos h, if_pos h]
        · rw [if_neg h, if_neg h, if_neg h]
      case isFalse hk =>
        -- Behind a smaller name, so in the rest.
        rw [getField?_cons, getField?_cons, ih]
        by_cases h : other = k
        · have hne : other ≠ name := fun heq => hk (heq.symm.trans h)
          rw [if_pos h, if_neg hne, if_pos h]
        · rw [if_neg h, if_neg h]

/-- A field that is erased is not found, and what is found elsewhere does not change. -/
private theorem getField?_eraseField :
    getField? (eraseField fields name) other =
      if other = name then none else getField? fields other := by
  induction fields with
  | nil => exact (ite_self _).symm
  | cons f rest ih =>
    obtain ⟨k, w⟩ := f
    rw [eraseField, List.filter_cons]
    by_cases hk : k = name
    -- The field is erased here, and others with its name behind it.
    · rw [if_neg (by simpa using hk), getField?_cons, ← eraseField, ih, hk]
      split <;> rfl
    · rw [if_pos (by simpa using hk), getField?_cons, getField?_cons, ← eraseField, ih]
      by_cases h : other = k
      · have hne : other ≠ name := fun heq => hk (h.symm.trans heq)
        rw [if_pos h, if_neg hne, if_pos h]
      · rw [if_neg h, if_neg h]

/-- A field that is set is found unless it is set to null, which erases it. -/
theorem getField?_setField :
    getField? (setField fields name v) other =
      if other = name then v.present? else getField? fields other := by
  unfold setField present?
  split
  · exact getField?_eraseField
  · exact getField?_insertField

/-! ### Order -/

/-- What is there after inserting was inserted or was there before. -/
private theorem mem_insertField {f : String × Value} (h : f ∈ insertField fields name v) :
    f = (name, v) ∨ f ∈ fields := by
  induction fields with
  | nil => exact Or.inl (List.mem_singleton.1 h)
  | cons g rest ih =>
    obtain ⟨k, w⟩ := g
    rw [insertField] at h
    split at h
    case isTrue => exact List.mem_cons.1 h
    case isFalse =>
      split at h
      case isTrue =>
        cases List.mem_cons.1 h with
        | inl h => exact Or.inl h
        | inr h => exact Or.inr (List.mem_cons_of_mem _ h)
      case isFalse =>
        cases List.mem_cons.1 h with
        | inl h => exact Or.inr (h ▸ List.mem_cons_self)
        | inr h => exact (ih h).imp_right (List.mem_cons_of_mem _)

/-- Inserting a field keeps the order. -/
theorem Ascending.insertField (h : Ascending fields) (name : String) (v : Value) :
    Ascending (insertField fields name v) := by
  induction fields with
  | nil => exact List.pairwise_singleton _ _
  | cons f rest ih =>
    obtain ⟨k, w⟩ := f
    obtain ⟨hhead, hrest⟩ := List.pairwise_cons.1 h
    rw [Value.insertField]
    split
    case isTrue hlt =>
      -- The new field comes before all others, as its name is smaller than the first.
      refine List.pairwise_cons.2 ⟨fun f hf => ?_, h⟩
      cases List.mem_cons.1 hf with
      | inl heq => exact heq ▸ hlt
      | inr hf => exact String.lt_trans hlt (hhead f hf)
    case isFalse hnlt =>
      split
      case isTrue heq => exact List.pairwise_cons.2 ⟨fun f hf => heq ▸ hhead f hf, hrest⟩
      case isFalse hne =>
        -- The name is greater than that of the head, so it goes into the rest.
        have hgt : k < name := by
          refine String.not_le.1 fun hle => hne ?_
          exact String.le_antisymm hle (String.not_lt.1 hnlt)
        refine List.pairwise_cons.2 ⟨fun f hf => ?_, ih hrest⟩
        cases mem_insertField hf with
        | inl heq => exact heq ▸ hgt
        | inr hf => exact hhead f hf

/-- Setting a field keeps the order. -/
theorem Ascending.setField (h : Ascending fields) (name : String) (v : Value) :
    Ascending (setField fields name v) := by
  unfold Value.setField
  split
  · exact List.Pairwise.filter _ h
  · exact h.insertField name v

/-- The first field stands before all others. -/
private theorem Ascending.getField?_eq_none {k : String} {w : Value}
    (h : Ascending ((k, w) :: fields)) (hle : name ≤ k) : getField? fields name = none := by
  cases hget : getField? fields name with
  | none => rfl
  | some v =>
    have hlt := (List.pairwise_cons.1 h).1 (name, v) (mem_of_getField? hget)
    exact absurd hle (String.not_le.2 hlt)

/-- A field that is there is found, since no other has its name. -/
theorem Ascending.getField?_of_mem (h : Ascending fields) {f : String × Value} (hf : f ∈ fields) :
    getField? fields f.1 = some f.2 := by
  induction fields with
  | nil => cases hf
  | cons g rest ih =>
    obtain ⟨k, w⟩ := g
    obtain ⟨hhead, hrest⟩ := List.pairwise_cons.1 h
    rw [getField?_cons]
    cases List.mem_cons.1 hf with
    | inl heq => rw [heq, if_pos rfl]
    | inr hf =>
      have hlt : k < f.1 := hhead f hf
      -- The field stands behind a smaller name.
      rw [if_neg (Ne.symm (String.ne_of_lt hlt)), ih hrest hf]

/-- Fields in ascending order are known by what is found in them. -/
theorem Ascending.ext {gields : List (String × Value)} (hf : Ascending fields)
    (hg : Ascending gields) (h : ∀ name, getField? fields name = getField? gields name) :
    fields = gields := by
  induction fields generalizing gields with
  -- With nothing on one side, the first name of the other would be found on one side only.
  | nil =>
    cases gields with
    | nil => rfl
    | cons g gs =>
      obtain ⟨k, w⟩ := g
      have hk := h k
      rw [getField?_cons, if_pos rfl] at hk
      cases hk
  | cons f fs ih =>
    obtain ⟨k, w⟩ := f
    cases gields with
    | nil =>
      have hk := h k
      rw [getField?_cons, if_pos rfl] at hk
      cases hk
    | cons g gs =>
      obtain ⟨l, x⟩ := g
      -- Neither of the first names comes before the other: it would be found on one side only.
      have hkl : ∀ {k l : String} {w x : Value} {fs gs : List (String × Value)},
          Ascending ((l, x) :: gs) →
          (∀ name, getField? ((k, w) :: fs) name = getField? ((l, x) :: gs) name) → l ≤ k := by
        intro k l w x fs gs hg h
        refine String.not_lt.1 fun hlt => ?_
        have hk := h k
        rw [getField?_cons, if_pos rfl, getField?_cons, if_neg (String.ne_of_lt hlt),
          hg.getField?_eq_none (String.not_lt.1 (String.lt_asymm hlt))] at hk
        cases hk
      obtain rfl : k = l := String.le_antisymm (hkl hf fun n => (h n).symm) (hkl hg h)
      -- The names are the same, so are the values that are found under them.
      have hhead := h k
      rw [getField?_cons, if_pos rfl, getField?_cons, if_pos rfl, Option.some.injEq] at hhead
      have hrest : fs = gs := by
        refine ih (List.pairwise_cons.1 hf).2 (List.pairwise_cons.1 hg).2 fun name => ?_
        -- No other field has the first name, and other names are found in the rest.
        by_cases hname : name = k
        · rw [hname, hf.getField?_eq_none (String.le_refl k),
            hg.getField?_eq_none (String.le_refl k)]
        · have := h name
          rwa [getField?_cons, if_neg hname, getField?_cons, if_neg hname] at this
      rw [hhead, hrest]

end Value

namespace CodecTable

open Value

variable {fields : List (String × Value)}

/-- Assigning fields keeps the order. -/
theorem ascending_assign (h : Ascending fields) (read : List (String × Value)) :
    Ascending (assign fields read) := by
  induction read generalizing fields with
  | nil => exact h
  | cons e rest ih => exact ih (h.setField e.1 e.2)

/-- The last value that is set under a name stays. -/
theorem getField?_assign (read : List (String × Value)) (name : String) :
    getField? (assign fields read) name =
      match read.reverse.lookup name with
      | some v => v.present?
      | none => getField? fields name := by
  induction read generalizing fields with
  | nil => rfl
  | cons e rest ih =>
    obtain ⟨k, v⟩ := e
    show getField? (assign (setField fields k v) rest) name = _
    -- What is set later decides, and without it the first one of the fields that are set.
    rw [ih, List.reverse_cons, List.lookup_append]
    cases rest.reverse.lookup name with
    | some w => rfl
    | none =>
      simp only [Option.none_or, List.lookup_cons, List.lookup_nil, getField?_setField]
      by_cases h : name = k
      · simp [h]
      · simp [h, beq_eq_false_iff_ne.2 h]

end CodecTable

end GraphCodec
