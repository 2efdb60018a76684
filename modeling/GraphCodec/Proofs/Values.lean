import GraphCodec.Value

/-!
# The parts of values

`Value.parts` are the values directly inside a value.  What holds of a value whenever it holds of
its parts holds of every value (`Value.induction`).
-/

namespace GraphCodec.Value

/-- The values directly inside a value. -/
def parts : Value → List Value
  | sequence _ items => items
  | map entries => entries.flatMap fun e => [e.1, e.2]
  | object _ fields => fields.map (·.2)
  | _ => []

/-- A part is smaller than the value it is in. -/
private theorem sizeOf_lt_of_mem_parts {v w : Value} (h : w ∈ v.parts) : sizeOf w < sizeOf v := by
  cases v with
  -- An element stands in the list.
  | sequence shape items =>
    have := List.sizeOf_lt_of_mem (show w ∈ items from h)
    simp only [sequence.sizeOf_spec]
    omega
  -- A key or a value stands in an entry, which stands in the list.
  | map entries =>
    obtain ⟨e, he, hw⟩ := List.mem_flatMap.1 h
    have := List.sizeOf_lt_of_mem he
    obtain ⟨k, v⟩ := e
    simp only [map.sizeOf_spec, Prod.mk.sizeOf_spec] at *
    rcases List.mem_cons.1 hw with rfl | hw
    · omega
    · rw [List.mem_singleton.1 hw]
      omega
  -- The value of a field stands in the field.
  | object name fields =>
    obtain ⟨f, hf, rfl⟩ := List.mem_map.1 h
    have := List.sizeOf_lt_of_mem hf
    obtain ⟨n, v⟩ := f
    simp only [object.sizeOf_spec, Prod.mk.sizeOf_spec] at *
    omega
  | _ => cases h

/-- What holds of a value whenever it holds of its parts holds of every value. -/
theorem induction {motive : Value → Prop}
    (step : ∀ v, (∀ w ∈ v.parts, motive w) → motive v) (v : Value) : motive v :=
  step v fun w _h => induction step w
termination_by sizeOf v
decreasing_by exact sizeOf_lt_of_mem_parts _h

/-- The key and the value of an entry are parts of a map. -/
theorem mem_parts_of_entry {entries : List (Value × Value)} {e : Value × Value}
    (h : e ∈ entries) : e.1 ∈ (map entries).parts ∧ e.2 ∈ (map entries).parts :=
  ⟨List.mem_flatMap.2 ⟨e, h, List.mem_cons_self⟩,
    List.mem_flatMap.2 ⟨e, h, List.mem_cons_of_mem _ List.mem_cons_self⟩⟩

/-- The values of fields are parts of an object. -/
private theorem mem_parts_of_field {name : String} {fields : List (String × Value)}
    {f : String × Value} (h : f ∈ fields) : f.2 ∈ (object name fields).parts :=
  List.mem_map_of_mem h

/-- A field that is found is there. -/
theorem mem_of_getField? {fields : List (String × Value)} {name : String} {v : Value}
    (h : getField? fields name = some v) : (name, v) ∈ fields := by
  obtain ⟨l₁, l₂, rfl, -⟩ := List.lookup_eq_some_iff.1 h
  simp

/-- The value that is found for a field is a part of the object. -/
theorem mem_parts_of_getField? {typeName name : String} {fields : List (String × Value)} {v : Value}
    (h : getField? fields name = some v) : v ∈ (object typeName fields).parts :=
  mem_parts_of_field (mem_of_getField? h)

end GraphCodec.Value
