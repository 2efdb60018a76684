import GraphCodec.Proofs.Codec.Calls
import GraphCodec.Proofs.Codec.Superclasses
import GraphCodec.Proofs.Codec.Text

/-!
# Calls that encode

Where no class is above itself, the calls that encode a value come to an end with what
`CodecTable.encode` writes (`Calling.returns_encode`), although they do not go down in the value one
by one: a reference, the codec of another class and that of a superclass are called for the same
object.  At most three calls stand between a value and its class, and no more than there are classes
in the table lead up from there.  Only then are the values of the fields encoded, so the depth of
calls is bounded by how deep the value is nested (`Value.nesting`).
-/

namespace GraphCodec

/-! ### Nesting -/

namespace Value

mutual

/-- How many sequences, maps and objects are around the innermost value. -/
def nesting : Value → Nat
  | sequence _ items => nestingItems items + 1
  | map entries => nestingEntries entries + 1
  | object _ fields => nestingFields fields + 1
  | _ => 0

/-- The greatest nesting of an element of a sequence. -/
def nestingItems : List Value → Nat
  | [] => 0
  | v :: rest => max v.nesting (nestingItems rest)

/-- The greatest nesting of a key or value of a map. -/
def nestingEntries : List (Value × Value) → Nat
  | [] => 0
  | (k, v) :: rest => max (max k.nesting v.nesting) (nestingEntries rest)

/-- The greatest nesting of the value of a field. -/
def nestingFields : List (String × Value) → Nat
  | [] => 0
  | (_, v) :: rest => max v.nesting (nestingFields rest)

end

/-- An item is nested no deeper than the deepest of the items. -/
private theorem nesting_le_of_mem_items {items : List Value} {v : Value} (h : v ∈ items) :
    v.nesting ≤ nestingItems items := by
  induction items with
  | nil => cases h
  | cons w rest ih =>
    rw [nestingItems]
    -- The item is the first one, or it stands in the rest.
    cases List.mem_cons.1 h with
    | inl heq => exact heq ▸ Nat.le_max_left _ _
    | inr h => exact Nat.le_trans (ih h) (Nat.le_max_right _ _)

/-- An entry is nested no deeper than the deepest of the entries. -/
private theorem nesting_le_of_mem_entries {entries : List (Value × Value)} {e : Value × Value}
    (h : e ∈ entries) : max e.1.nesting e.2.nesting ≤ nestingEntries entries := by
  induction entries with
  | nil => cases h
  | cons e' rest ih =>
    obtain ⟨k, w⟩ := e'
    rw [nestingEntries]
    cases List.mem_cons.1 h with
    | inl heq => exact heq ▸ Nat.le_max_left _ _
    | inr h => exact Nat.le_trans (ih h) (Nat.le_max_right _ _)

/-- The value of a field is nested no deeper than the deepest of the fields. -/
private theorem nesting_le_of_mem_fields {fields : List (String × Value)} {f : String × Value}
    (h : f ∈ fields) : f.2.nesting ≤ nestingFields fields := by
  induction fields with
  | nil => cases h
  | cons f' rest ih =>
    obtain ⟨name, w⟩ := f'
    rw [nestingFields]
    cases List.mem_cons.1 h with
    | inl heq => exact heq ▸ Nat.le_max_left _ _
    | inr h => exact Nat.le_trans (ih h) (Nat.le_max_right _ _)

/-- A part is nested less deep than the value it is in. -/
private theorem nesting_lt_of_mem_parts {v w : Value} (h : w ∈ v.parts) :
    w.nesting < v.nesting := by
  cases v with
  | sequence shape items =>
    have := nesting_le_of_mem_items (show w ∈ items from h)
    rw [nesting]
    omega
  | map entries =>
    -- The part is the key or the value of an entry.
    obtain ⟨e, he, hw⟩ := List.mem_flatMap.1 h
    have := nesting_le_of_mem_entries he
    rw [nesting]
    cases List.mem_cons.1 hw with
    | inl heq => rw [heq]; omega
    | inr hw => rw [List.mem_singleton.1 hw]; omega
  | object name fields =>
    obtain ⟨f, hf, rfl⟩ := List.mem_map.1 h
    have := nesting_le_of_mem_fields hf
    rw [nesting]
    omega
  -- The other values have no parts.
  | _ => cases h

end Value

namespace Calling

open Chunk CodecTable

variable {t : CodecTable} {call : CodecRef → Value → Calling Chunk}

/-! ### Pieces of text -/

/-- Pieces are written as they are called for. -/
theorem returns_pieces {α : Type} {as : List α} {piece : α → Calling Chunk}
    {write : α → Except CodecError Chunk} (writeAll : List α → Nat → Except CodecError Chunk)
    (hnil : ∀ count, writeAll [] count = .ok id)
    (hcons : ∀ a as count, writeAll (a :: as) count = do
      let cs ← write a
      let ds ← writeAll as (count + 1)
      return separator count ∘ cs ∘ ds)
    (h : ∀ a ∈ as, Returns (piece a) (write a)) (count : Nat) :
    Returns (pieces piece as count) (writeAll as count) := by
  induction as generalizing count with
  | nil =>
    rw [hnil]
    exact .pure
  | cons a as ih =>
    rw [hcons, pieces]
    -- The first piece is called for and written before the rest.
    refine (h a List.mem_cons_self).bind fun cs _ => ?_
    refine (ih (fun b hb => h b (List.mem_cons_of_mem a hb)) (count + 1)).bind fun ds _ => ?_
    exact .pure

/-- A call for a value that may be null returns if one for the value does. -/
theorem returns_encodeNullable {c : CodecRef} {v : Value}
    (h : Returns (call c v) (t.writeNonNull v c)) :
    Returns (encodeNullable call c v) (writeNullable v (t.writeNonNull v) c) := by
  unfold encodeNullable writeNullable
  split
  · exact .pure
  · exact h

/-- Calls for the items of a container return its text. -/
private theorem returns_items {items : List Value} {c : CodecRef}
    (h : ∀ v ∈ items, Returns (call c v) (t.writeNonNull v c)) :
    Returns (pieces (encodeNullable call c) items 0) (t.writeItems items c 0) := by
  refine returns_pieces (fun items => t.writeItems items c) (fun count => ?_)
    (fun v rest count => ?_) (fun v hv => returns_encodeNullable (h v hv)) 0
  · rw [writeItems]
  · rw [writeItems]

/-- Calls for the keys of a map return their text. -/
private theorem returns_keys {entries : List (Value × Value)} {c : CodecRef}
    (h : ∀ e ∈ entries, Returns (call c e.1) (t.writeNonNull e.1 c)) :
    Returns (pieces (fun e => encodeNullable call c e.1) entries 0) (t.writeKeys entries c 0) := by
  refine returns_pieces (fun entries => t.writeKeys entries c) (fun count => ?_)
    (fun e rest count => ?_) (fun e he => returns_encodeNullable (h e he)) 0
  · rw [writeKeys]
  · rw [writeKeys]

/-- Calls for the values of a map return their text. -/
private theorem returns_values {entries : List (Value × Value)} {c : CodecRef}
    (h : ∀ e ∈ entries, Returns (call c e.2) (t.writeNonNull e.2 c)) :
    Returns (pieces (fun e => encodeNullable call c e.2) entries 0)
      (t.writeValues entries c 0) := by
  refine returns_pieces (fun entries => t.writeValues entries c) (fun count => ?_)
    (fun e rest count => ?_) (fun e he => returns_encodeNullable (h e he)) 0
  · rw [writeValues]
  · rw [writeValues]

/-- A call for a key returns the name that it is written as. -/
private theorem returns_memberName {key : Option CodecRef} {k : Value}
    (h : ∀ c, Returns (call c k) (t.writeNonNull k c)) :
    Returns (memberName call key k) (writeKey k (t.writeNonNull k) key) := by
  cases key with
  | none => cases k <;> exact .done
  | some c =>
    rw [memberName, writeKey]
    split
    · exact .done
    · exact (h c).map

/-- Calls for the entries of a map return its text. -/
theorem returns_entries {entries : List (Value × Value)} {key : Option CodecRef} {value : CodecRef}
    (h : ∀ e ∈ entries, ∀ c, Returns (call c e.1) (t.writeNonNull e.1 c) ∧
      Returns (call c e.2) (t.writeNonNull e.2 c)) (count : Nat) :
    Returns (pieces (encodeEntry call key value) entries count)
      (t.writeEntries entries key value count) := by
  induction entries generalizing count with
  | nil =>
    rw [writeEntries]
    exact .pure
  | cons e rest ih =>
    have he := h e List.mem_cons_self
    rw [pieces, encodeEntry, writeEntries, bind_assoc]
    -- The key comes first, so an error in it hides those in the value.
    refine (returns_memberName fun c => (he c).1).bind fun name _ => ?_
    rw [bind_assoc]
    refine (returns_encodeNullable (he value).2).bind fun item _ => ?_
    rw [pure_bind]
    refine (ih (fun e he => h e (List.mem_cons_of_mem _ he)) (count + 1)).bind fun members _ => ?_
    exact .pure

/-! ### Fields -/

-- The equations take a while to derive; this does it once, before the proofs that need them.
attribute [local simp] encode encodeObject printFields

/-- Whether the calls for the values of fields return what is written for them. -/
structure FieldsReturn (t : CodecTable) (call : CodecRef → Value → Calling Chunk)
    (fields : List (String × Value)) : Prop where
  /-- The zero of a primitive field is written without being a value of the object. -/
  scalar : ∀ s v, Returns (call (.scalar s) v) ((s.encode v).map Json.write)
  field : ∀ name v, Value.getField? fields name = some v →
    ∀ c, Returns (call c v) (t.writeNonNull v c)

variable {fields : List (String × Value)}

/-- The codec of a primitive field is that of its scalar. -/
private theorem FieldEncoding.codec_of_primitive? {e : FieldEncoding} {s : Scalar}
    (h : e.primitive? = some s) : e.codec = .scalar s := by
  cases e with
  | primitive s' => exact congrArg CodecRef.scalar (Option.some.inj h)
  | _ => cases h

/-- A call for a field returns its member, or that there is none. -/
private theorem returns_printField (h : FieldsReturn t call fields) (f : FieldPlan) (count : Nat) :
    Returns (printField call f (fieldToPrint fields f) count)
      (writeField (fun name => (t.fieldWriters fields).lookup name) f count) := by
  unfold writeField fieldToPrint
  simp only [lookup_fieldWriters]
  cases hv : Value.getField? fields f.name with
  | some v =>
    cases f.encoding.primitive? <;> exact (h.field f.name v hv _).map
  -- A field that is not set: zero if it is primitive, and otherwise left out.
  | none =>
    cases hs : f.encoding.primitive? with
    | some s =>
      -- The zero goes through the codec of the field, which is that of the primitive.
      have hzero := h.scalar s s.zero
      rw [← FieldEncoding.codec_of_primitive? hs] at hzero
      exact hzero.map
    | none => exact .pure

/-- Calls for the own fields of a class return their members. -/
private theorem returns_printOwnFields (h : FieldsReturn t call fields) (fs : List FieldPlan)
    (count : Nat) :
    Returns (printOwnFields call fields fs count)
      (writeOwnFields (fun name => (t.fieldWriters fields).lookup name) fs count) := by
  induction fs generalizing count with
  | nil => exact .pure
  | cons f fs ih =>
    rw [printOwnFields, writeOwnFields]
    refine (returns_printField h f count).bind fun member _ => ?_
    refine (ih member.2).bind fun members _ => ?_
    exact .pure

variable (ha : t.Acyclic) {p : ObjectPlan} {depth enough : Nat}

include ha

/-- Along the superclasses of a class there are fewer of them at every step, so steps for more than
there are above the class lead to the topmost one, or to a name without a codec. -/
private theorem returns_printFields {steps : Nat} (hp : t.object? p.typeName = some p)
    (hsteps : t.height p.typeName < steps) (hdepth : steps + enough ≤ depth)
    (h : ∀ depth, enough ≤ depth → FieldsReturn t (encode t depth) fields) (count : Nat) :
    Returns (printFields t depth p fields count)
      (t.writeFieldsWithin (fun name => (t.fieldWriters fields).lookup name) steps p count) := by
  -- By induction on the steps, which stay ahead of the height of the class.
  induction steps generalizing p depth count with
  | zero => omega
  | succ steps ih =>
    obtain ⟨depth, rfl⟩ : ∃ d, depth = d + 1 := ⟨depth - 1, by omega⟩
    -- The own fields are written behind those of the superclass.
    have hown := returns_printOwnFields (h depth (by omega)) p.fields
    rw [printFields, writeFieldsWithin]
    cases hsuper : p.superclass with
    | none => exact hown count
    | some name =>
      -- The superclass is looked up, and one step less suffices for it.
      refine Returns.done.bind fun above habove => ?_
      have hq := object_eq_ok.1 habove
      have hname := typeName_of_object? hq
      have hlt := ha.height_lt ⟨p, hp, hsuper⟩ hq
      refine (ih (hname ▸ hq) (by rw [hname]; omega) (by omega) count).bind fun inherited _ => ?_
      refine (hown inherited.2).bind fun own _ => ?_
      exact .pure

/-- The fields of a class are written with as many calls as there are classes in the table. -/
theorem returns_printObject {name typeName : String} {tagged : Bool} (hp : t.object? name = some p)
    (hdepth : t.objects.length + enough ≤ depth)
    (h : ∀ depth, enough ≤ depth → FieldsReturn t (encode t depth) fields) :
    Returns (printObject t tagged typeName (printFields t depth p fields))
      (t.writeUndispatched p tagged typeName fun name => (t.fieldWriters fields).lookup name) := by
  have hname := typeName_of_object? hp
  have hfields := returns_printFields ha (hname ▸ hp)
    (hname ▸ ha.height_lt_length hp) hdepth h
  unfold printObject writeUndispatched
  refine (hfields _).bind fun members _ => ?_
  exact .pure

/-- An object that is not handed on is written through the codec of a class. -/
theorem returns_encodeObject_unchecked {name typeName : String} (hp : t.object? name = some p)
    (hdepth : t.objects.length + enough < depth)
    (h : ∀ depth, enough ≤ depth → FieldsReturn t (encode t depth) fields) :
    Returns (encodeObject t depth p (.object typeName fields) false)
      (t.writeUndispatched p true typeName fun name => (t.fieldWriters fields).lookup name) := by
  obtain ⟨depth, rfl⟩ : ∃ d, depth = d + 1 := ⟨depth - 1, by omega⟩
  rw [encodeObject, if_neg (by simp)]
  exact returns_printObject ha hp (by omega) h

/-- An object is handed on once at most. -/
private theorem returns_encodeObject_checked {name typeName : String} (hp : t.object? name = some p)
    (hdepth : t.objects.length + enough + 1 < depth)
    (h : ∀ depth, enough ≤ depth → FieldsReturn t (encode t depth) fields) :
    Returns (encodeObject t depth p (.object typeName fields) true)
      (t.writeDispatched p typeName fun name => (t.fieldWriters fields).lookup name) := by
  obtain ⟨depth, rfl⟩ : ∃ d, depth = d + 1 := ⟨depth - 1, by omega⟩
  unfold writeDispatched
  rw [encodeObject]
  -- The object is of a known subtype, whose codec takes it from there, or the class itself writes
  -- it.
  by_cases hsub : typeName ≠ p.typeName ∧ p.knowsSubtype typeName
  · rw [if_pos ⟨rfl, hsub⟩, if_pos hsub]
    refine Returns.done.bind fun sub hq => ?_
    exact returns_encodeObject_unchecked ha (object_eq_ok.1 hq) (by omega) h
  · rw [if_neg fun h => hsub h.2, if_neg hsub]
    exact returns_printObject ha hp (by omega) h

/-! ### Values -/

omit ha

/-- Whether the parts of a value are encoded by calls, even if these are deeper than those for the
value by as much as a class can need. -/
def PartsReturn (t : CodecTable) (depth : Nat) (v : Value) : Prop :=
  ∀ w ∈ v.parts, ∀ c below, depth ≤ below + t.objects.length + 2 →
    Returns (encode t below c w) (t.writeNonNull w c)

namespace PartsReturn

variable {v : Value} {entries : List (Value × Value)} {typeName : String}

/-- Parts are encoded one level down. -/
theorem part (h : PartsReturn t depth v) {w : Value} (hw : w ∈ v.parts) (c : CodecRef) :
    Returns (encode t depth c w) (t.writeNonNull w c) :=
  h w hw c depth (by omega)

/-- The keys and values of a map are parts of it, so calls for them return. -/
theorem entry (h : PartsReturn t depth (.map entries)) :
    ∀ e ∈ entries, ∀ c, Returns (encode t depth c e.1) (t.writeNonNull e.1 c) ∧
      Returns (encode t depth c e.2) (t.writeNonNull e.2 c) := by
  intro e he c
  have ⟨hkey, hvalue⟩ := Value.mem_parts_of_entry he
  exact ⟨h.part hkey c, h.part hvalue c⟩

/-- The fields of an object are encoded behind the calls for its class. -/
theorem fieldsReturn (h : PartsReturn t depth (.object typeName fields))
    (hdepth : t.objects.length + 2 < depth) :
    ∀ below, depth - t.objects.length - 2 ≤ below → FieldsReturn t (encode t below) fields := by
  intro below hbelow
  constructor
  · intro s w
    -- The zero of a field takes one call.
    obtain ⟨below, rfl⟩ : ∃ d, below = d + 1 := ⟨below - 1, by omega⟩
    exact .done
  -- The value of a field is a part of the object.
  · intro name w hw c
    exact h w (Value.mem_parts_of_getField? hw) c below (by omega)

end PartsReturn

/-- An object leaves room for the calls of its class, and for one of a field without a value. -/
theorem room_of_object {typeName : String}
    (hdepth : (t.objects.length + 3) * ((Value.object typeName fields).nesting + 1) ≤ depth + 1) :
    t.objects.length + 2 < depth := by
  -- A value is nested at least one deep, so twice the calls of one level fit.
  have htwo : (t.objects.length + 3) * 2 ≤
      (t.objects.length + 3) * ((Value.object typeName fields).nesting + 1) :=
    Nat.mul_le_mul_left _ (by simp [Value.nesting])
  omega

section Step

variable {v : Value} (h : PartsReturn t depth v)

include h

/-- A call for a container returns what its items are written as. -/
private theorem returns_encode_sequence (shape : Shape) (element : CodecRef) :
    Returns (encode t (depth + 1) (.sequence shape element) v)
      (t.writeNonNull v (.sequence shape element)) := by
  rw [encode.eq_def, writeNonNull.eq_def]
  cases v with
  | sequence shape' items =>
    dsimp only
    split
    -- A container of the right shape is written item by item, anything else is refused.
    · exact (returns_items fun w hw => h.part hw element).map
    · exact .done
  | _ => exact .done

/-- A call for a map with textual keys returns what its entries are written as. -/
private theorem returns_encode_textKeyMap (value : CodecRef) :
    Returns (encode t (depth + 1) (.textKeyMap value) v)
      (t.writeNonNull v (.textKeyMap value)) := by
  rw [encode.eq_def, writeNonNull.eq_def]
  cases v with
  | map entries => exact (returns_entries h.entry 0).map
  | _ => exact .done

/-- A call for a map with parsed keys returns what its entries are written as. -/
private theorem returns_encode_parsedKeyMap (key value : CodecRef) :
    Returns (encode t (depth + 1) (.parsedKeyMap key value) v)
      (t.writeNonNull v (.parsedKeyMap key value)) := by
  rw [encode.eq_def, writeNonNull.eq_def]
  cases v with
  | map entries => exact (returns_entries h.entry 0).map
  | _ => exact .done

/-- A call for a map in the paired form returns what its keys and values are written as. -/
private theorem returns_encode_pairedMap (key value : CodecRef) :
    Returns (encode t (depth + 1) (.pairedMap key value) v)
      (t.writeNonNull v (.pairedMap key value)) := by
  rw [encode.eq_def, writeNonNull.eq_def]
  cases v with
  | map entries =>
    refine (returns_keys fun e he => (h.entry e he key).1).bind fun keys _ => ?_
    refine (returns_values fun e he => (h.entry e he value).2).bind fun values _ => ?_
    exact .pure
  | _ => exact .done

include ha

variable (hdepth : (t.objects.length + 3) * (v.nesting + 1) ≤ depth + 1)

include hdepth

/-- A reference to a class calls its codec, which refuses anything but an object. -/
private theorem returns_encode_generated (name : String) :
    Returns (encode t (depth + 1) (.generated name) v) (t.writeNonNull v (.generated name)) := by
  rw [encode.eq_def, writeNonNull.eq_def]
  dsimp only
  -- The name is that of a class, of an enum, or of neither.
  cases hp : t.object? name with
  | some p =>
    cases v with
    | object typeName fields =>
      have hroom := room_of_object hdepth
      exact returns_encodeObject_checked ha hp (by omega) (h.fieldsReturn hroom)
    -- Anything but an object is refused by the codec of the class, one call further.
    | _ =>
      rw [Nat.mul_succ] at hdepth
      obtain ⟨depth, rfl⟩ : ∃ d, depth = d + 1 := ⟨depth - 1, by omega⟩
      exact .done
  | none => cases t.enum? name <;> exact .done

/-- Without a declared type an object is written through the codec of its own class. -/
private theorem returns_encode_any :
    Returns (encode t (depth + 1) .any v) (t.writeNonNull v .any) := by
  rw [encode.eq_def, writeNonNull.eq_def]
  cases v with
  -- Leaves are written as they are; containers and objects call for their parts.
  | null => exact .pure
  | string s => exact .pure
  | enum typeName variant => exact .pure
  | sequence shape items => exact (returns_items fun w hw => h.part hw .any).map
  | map entries => exact (returns_entries h.entry 0).map
  | object typeName fields =>
    have hroom := room_of_object hdepth
    refine Returns.done.bind fun p hp => ?_
    exact returns_encodeObject_unchecked ha (object_eq_ok.1 hp) (by omega) (h.fieldsReturn hroom)
  | _ => exact .done

/-- Where the parts of a value are encoded, so is the value. -/
private theorem returns_encode_step (c : CodecRef) :
    Returns (encode t (depth + 1) c v) (t.writeNonNull v c) := by
  -- Leaves are written without a further call.
  cases c with
  | scalar s =>
    rw [encode, writeNonNull]
    exact .done
  | string =>
    rw [encode, writeNonNull]
    exact .done
  | date =>
    rw [encode, writeNonNull]
    exact .done
  | timestamp =>
    rw [encode, writeNonNull]
    exact .done
  | localDate =>
    rw [encode, writeNonNull]
    exact .done
  -- The other codecs call for parts of the value or for the codec of a class.
  | sequence shape element => exact returns_encode_sequence h shape element
  | textKeyMap value => exact returns_encode_textKeyMap h value
  | parsedKeyMap key value => exact returns_encode_parsedKeyMap h key value
  | pairedMap key value => exact returns_encode_pairedMap h key value
  | generated name => exact returns_encode_generated ha h hdepth name
  | any => exact returns_encode_any ha h hdepth

end Step

include ha

/-- The calls that encode a value come to an end. -/
theorem returns_encode (v : Value) (c : CodecRef)
    (hdepth : (t.objects.length + 3) * (v.nesting + 1) ≤ depth) :
    Returns (encode t depth c v) (t.writeNonNull v c) := by
  induction v using Value.induction generalizing c depth with
  | step v ih =>
    have hpos : 0 < depth := Nat.lt_of_lt_of_le (Nat.mul_pos (by omega) (by omega)) hdepth
    obtain ⟨depth, rfl⟩ : ∃ d, depth = d + 1 := ⟨depth - 1, by omega⟩
    refine returns_encode_step ha (fun w hw c below hbelow => ih w hw c ?_) hdepth c
    -- A part is nested less deep, which makes up for all calls between the value and the part.
    have hnesting : (t.objects.length + 3) * (w.nesting + 1) ≤
        (t.objects.length + 3) * v.nesting :=
      Nat.mul_le_mul_left _ (Value.nesting_lt_of_mem_parts hw)
    rw [Nat.mul_succ] at hdepth
    omega

/-- The calls that write a text for a value come to an end. -/
theorem returns_encodeText {c : CodecRef} {v : Value}
    (hdepth : (t.objects.length + 3) * (v.nesting + 1) ≤ depth) :
    Returns (encodeText t depth c v) (t.encode c v) :=
  (returns_encodeNullable (returns_encode ha v c hdepth)).map

omit ha

/-! ### Cycles -/

open Relation

/-- On a cycle there is always another superclass whose fields come first. -/
private theorem printFields_eq_stop {name : String} (hcycle : TransGen t.Below name name)
    (hp : t.object? name = some p) (depth : Nat) (fields : List (String × Value)) (count : Nat) :
    printFields t depth p fields count = stop := by
  -- The induction is on the depth, for every class of a cycle at once.
  induction depth generalizing name p count with
  | zero => rfl
  | succ depth ih =>
    -- The class has a superclass, and that is on a cycle too.
    obtain ⟨p', above, q, hp', hsuper, hq, hcycle'⟩ := exists_above_of_cycle hcycle
    obtain rfl : p = p' := Option.some.inj (hp.symm.trans hp')
    rw [printFields, hsuper]
    dsimp only
    rw [object_eq_ok.2 hq]
    show (printFields t depth q fields count >>= _) = _
    rw [ih hcycle' hq]
    rfl

/-- An object whose fields are never written is never written. -/
private theorem printObject_stop (tagged : Bool) (typeName : String) :
    printObject t tagged typeName (fun _ => stop) = stop := by
  cases tagged <;> rfl

/-- An object of a class on a cycle is never written. -/
private theorem encode_eq_stop {name : String} (hcycle : TransGen t.Below name name) (depth : Nat)
    (fields : List (String × Value)) :
    encode t depth (.generated name) (.object name fields) = stop := by
  obtain ⟨p, -, -, hp, -⟩ := exists_above_of_cycle hcycle
  have hname := typeName_of_object? hp
  cases depth with
  | zero => rfl
  -- The call for the reference and the call for the class come first, then the fields.
  | succ depth =>
    rw [encode, hp]
    cases depth with
    | zero => rfl
    -- All fields of the class wait for those of a superclass on the cycle.
    | succ depth =>
      have hfields : printFields t depth p fields = fun _ => stop :=
        funext (printFields_eq_stop hcycle hp depth fields)
      show encodeObject t (depth + 1) p (.object name fields) true = stop
      rw [encodeObject, if_neg fun h => h.2.1 hname.symm, hfields, printObject_stop]

/-- Encoding comes to an end for all values exactly if no class is above itself. -/
theorem acyclic_iff_returns :
    t.Acyclic ↔ ∀ c v, ∃ depth r, Returns (encodeText t depth c v) r := by
  -- Without a cycle the bound on the depth suffices.
  constructor
  · intro ha c v
    exact ⟨_, _, returns_encodeText ha (Nat.le_refl _)⟩
  -- With a cycle the empty object of a class on it is never written.
  · intro h name hcycle
    obtain ⟨depth, r, hr⟩ := h (.generated name) (.object name [])
    rw [encodeText, encodeNullable, if_neg (by simp [Value.isNull]),
      encode_eq_stop hcycle] at hr
    cases hr

end Calling

end GraphCodec
