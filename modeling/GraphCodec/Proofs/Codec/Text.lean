import GraphCodec.Codec.Encode
import GraphCodec.Proofs.Codec.Encoding

/-!
# The text that is written

The writers append the text of the tree that encoding builds (`encode_eq`, `writeNamed_eq`), so
whatever they write is one JSON document (`exists_parse_of_written`).

`Chunk.separated` is the text of elements or members behind `count` others.  A writer that counts
leaves exactly this text behind, and the count that it passes on is that of the members written
(`writeOwnFields_eq`, `writeFieldsWithin_eq`), so the next writer puts a comma where one belongs.
-/

namespace GraphCodec

namespace Chunk

variable {α : Type}

/-- Pieces behind `count` others, with commas between them. -/
def separated (piece : α → Chunk) : Nat → List α → Chunk
  | _, [] => id
  | count, a :: as => separator count ∘ piece a ∘ separated piece (count + 1) as

private theorem separated_nil (piece : α → Chunk) (count : Nat) :
    separated piece count [] = id := rfl

theorem separated_cons (piece : α → Chunk) (count : Nat) (a : α) (as : List α) :
    separated piece count (a :: as) =
      separator count ∘ piece a ∘ separated piece (count + 1) as := rfl

/-- The member of an object. -/
def member (m : String × Json) : Chunk := memberStart m.1 ∘ m.2.write

private theorem separator_zero : separator 0 = id := rfl

/-- A comma stands in front of every further piece. -/
private theorem separator_succ (count : Nat) : separator (count + 1) = List.cons ',' := by
  funext rest
  rw [separator, if_pos (Nat.succ_pos count)]

/-- Pieces behind pieces. -/
theorem separated_append (piece : α → Chunk) (count : Nat) (as bs : List α) :
    separated piece count (as ++ bs) =
      separated piece count as ∘ separated piece (count + as.length) bs := by
  induction as generalizing count with
  | nil => rfl
  | cons a as ih =>
    -- The front pieces add to the count of those behind them.
    have hcount : count + 1 + as.length = count + (as.length + 1) := by omega
    rw [List.cons_append, separated_cons, ih, hcount]
    rfl

/-- Behind others, the pieces of an array are its further elements. -/
private theorem separated_write (count : Nat) (js : List Json) :
    separated Json.write (count + 1) js = Json.writeItems js := by
  -- Behind at least one element every further one has a comma in front.
  induction js generalizing count with
  | nil =>
    funext rest
    rw [separated_nil, Json.writeItems]
    rfl
  | cons j js ih =>
    funext rest
    rw [separated_cons, ih, separator_succ, Json.writeItems]
    rfl

/-- Behind others, the pieces of an object are its further members. -/
private theorem separated_member (count : Nat) (ms : List (String × Json)) :
    separated member (count + 1) ms = Json.writeMembers ms := by
  induction ms generalizing count with
  | nil =>
    funext rest
    rw [separated_nil, Json.writeMembers]
    rfl
  | cons m ms ih =>
    obtain ⟨name, j⟩ := m
    funext rest
    rw [separated_cons, ih, separator_succ, Json.writeMembers]
    rfl

/-- The text of an array. -/
theorem bracketed_separated (js : List Json) :
    bracketed (separated Json.write 0 js) = (Json.array js).write := by
  funext rest
  -- The first element has no comma, the others have one each.
  cases js with
  | nil =>
    rw [Json.write]
    rfl
  | cons j js =>
    rw [separated_cons, separated_write, separator_zero, Json.write]
    rfl

/-- The text of an object. -/
theorem braced_separated (ms : List (String × Json)) :
    braced (separated member 0 ms) = (Json.object ms).write := by
  funext rest
  -- The first member has no comma, the others have one each.
  cases ms with
  | nil =>
    rw [Json.write]
    rfl
  | cons m ms =>
    obtain ⟨name, j⟩ := m
    rw [separated_cons, separated_member, separator_zero, Json.write]
    rfl

/-- The text of a string. -/
theorem writeString_eq (s : String) : Json.writeString s = (Json.string s).write := by
  funext rest
  rw [Json.write]

/-- The form of a map as two arrays. -/
private theorem pairedForm_separated (keys values : List Json) :
    pairedForm (separated Json.write 0 keys) (separated Json.write 0 values) =
      (Json.object [("keys", .array keys), ("values", .array values)]).write := by
  rw [pairedForm, bracketed_separated, bracketed_separated, ← braced_separated]
  rfl

end Chunk

namespace CodecTable

open Chunk

variable {t : CodecTable}

/-! ### Lists of pieces -/

-- The equations take a while to derive; this does it once, before the proofs that need them.
attribute [local simp] writeNonNull writeItems writeKeys writeValues writeEntries fieldWriters

/-- A writer of pieces behind `count` others writes the pieces of the elements. -/
private theorem write_eq_separated {α β : Type} {encode : α → Except CodecError β}
    {piece : β → Chunk} (write : α → Except CodecError Chunk)
    (writeAll : List α → Nat → Except CodecError Chunk)
    (hnil : ∀ count, writeAll [] count = .ok id)
    (hcons : ∀ a as count, writeAll (a :: as) count = do
      let cs ← write a
      let ds ← writeAll as (count + 1)
      return separator count ∘ cs ∘ ds)
    {as : List α} (has : ∀ a ∈ as, write a = (encode a).map piece) (count : Nat) :
    writeAll as count = (as.mapM encode).map (separated piece count) := by
  -- The count only decides whether a separator stands in front.
  induction as generalizing count with
  | nil => rw [hnil, List.mapM_nil]; rfl
  | cons a as ih =>
    have ha := has a List.mem_cons_self
    have ih := ih fun b hb => has b (List.mem_cons_of_mem a hb)
    -- An error of the first element comes before those of the others, on both sides.
    rw [hcons, List.mapM_cons, ha, ih]
    cases encode a with
    | error e => rfl
    | ok b =>
      cases as.mapM encode with
      | error e => rfl
      | ok bs => rfl

/-- What may be null is written as it is encoded. -/
theorem writeNullable_eq {v : Value} {writer : Writer} {encoder : Encoder} {c : CodecRef}
    (h : writer c = (encoder c).map Json.write) :
    writeNullable v writer c = (encodeNullable v encoder c).map Json.write := by
  unfold writeNullable encodeNullable
  split
  -- Null is written as the text of null.
  · have hnull : (fun rest => "null".toList ++ rest) = Json.null.write := by
      funext rest
      rw [Json.write]
    rw [hnull]
    rfl
  · exact h

/-- Items are written as the elements that they are encoded as. -/
private theorem writeItems_eq {items : List Value} {c : CodecRef}
    (h : ∀ v ∈ items, t.writeNonNull v c = (t.encodeNonNull v c).map Json.write) (count : Nat) :
    t.writeItems items c count =
      (t.encodeItems items c).map (separated Json.write count) := by
  rw [encodeItems_eq]
  refine write_eq_separated _ (fun items => t.writeItems items c) ?_ ?_
    (fun v hv => writeNullable_eq (h v hv)) count
  · intro count
    rw [writeItems]
  · intro v rest count
    rw [writeItems]

/-- Keys are written as the elements that they are encoded as. -/
private theorem writeKeys_eq {entries : List (Value × Value)} {c : CodecRef}
    (h : ∀ e ∈ entries, t.writeNonNull e.1 c = (t.encodeNonNull e.1 c).map Json.write)
    (count : Nat) :
    t.writeKeys entries c count =
      (t.encodeKeys entries c).map (separated Json.write count) := by
  rw [encodeKeys_eq]
  refine write_eq_separated _ (fun entries => t.writeKeys entries c) ?_ ?_
    (fun e he => writeNullable_eq (h e he)) count
  · intro count
    rw [writeKeys]
  · intro e rest count
    rw [writeKeys]

/-- Values are written as the elements that they are encoded as. -/
private theorem writeValues_eq {entries : List (Value × Value)} {c : CodecRef}
    (h : ∀ e ∈ entries, t.writeNonNull e.2 c = (t.encodeNonNull e.2 c).map Json.write)
    (count : Nat) :
    t.writeValues entries c count =
      (t.encodeValues entries c).map (separated Json.write count) := by
  rw [encodeValues_eq]
  refine write_eq_separated _ (fun entries => t.writeValues entries c) ?_ ?_
    (fun e he => writeNullable_eq (h e he)) count
  · intro count
    rw [writeValues]
  · intro e rest count
    rw [writeValues]

/-! ### Maps -/

/-- What the text of a readable key stands for as the name of a member. -/
private theorem memberNameOfText_write {j : Json} (h : j.Readable) :
    memberNameOfText (Chunk.text j.write) = memberName j := by
  have hparse : Json.parse (Chunk.text j.write) = .ok j.reread := Json.parse_render h
  unfold memberNameOfText
  rw [hparse]
  cases j with
  | string s => rfl
  | _ => rfl

/-- The name of a member is read off the written key. -/
private theorem writeKey_eq {k : Value} {writer : Writer} {encoder : Encoder}
    (key : Option CodecRef) (h : ∀ c, writer c = (encoder c).map Json.write)
    (hreadable : ∀ c j, encoder c = .ok j → j.Readable) :
    writeKey k writer key = encodeKey k encoder key := by
  cases key with
  | none => rfl
  | some c =>
    rw [writeKey, encodeKey, h]
    -- The text of a key is taken apart again, for which it has to be readable.
    cases hj : encoder c with
    | error e => rfl
    | ok j =>
      simp only [Except.map, memberNameOfText_write (hreadable c j hj)]

/-- Writes an entry of a map without a separator in front. -/
private def writeEntry (t : CodecTable) (key : Option CodecRef) (value : CodecRef)
    (e : Value × Value) : Except CodecError Chunk := do
  let name ← writeKey e.1 (t.writeNonNull e.1) key
  let item ← writeNullable e.2 (t.writeNonNull e.2) value
  return memberStart name ∘ item

/-- Entries are written as the members that they are encoded as. -/
private theorem writeEntries_eq {entries : List (Value × Value)} {key : Option CodecRef}
    {value : CodecRef}
    (h : ∀ e ∈ entries, (∀ c, t.writeNonNull e.1 c = (t.encodeNonNull e.1 c).map Json.write) ∧
      ∀ c, t.writeNonNull e.2 c = (t.encodeNonNull e.2 c).map Json.write) (count : Nat) :
    t.writeEntries entries key value count =
      (t.encodeEntries entries key value).map (separated member count) := by
  rw [encodeEntries_eq]
  refine write_eq_separated (t.writeEntry key value)
    (fun entries => t.writeEntries entries key value) ?_ ?_ ?_ count
  · intro count
    rw [writeEntries]
  · intro e rest count
    rw [writeEntries, writeEntry]
    -- The text of an entry is put together in the writer, or joined to the others afterwards.
    cases writeKey e.1 (t.writeNonNull e.1) key with
    | error e => rfl
    | ok name =>
      cases writeNullable e.2 (t.writeNonNull e.2) value with
      | error e => rfl
      | ok cs => rfl
  -- The key is encoded before the value, and either error ends both.
  · intro e he
    have ⟨hkey, hvalue⟩ := h e he
    rw [writeEntry, encodeEntry, encodeJson, writeKey_eq key hkey fun c j => readable_encodeNonNull,
      writeNullable_eq (hvalue value)]
    cases encodeKey e.1 (t.encodeNonNull e.1) key with
    | error e => rfl
    | ok name =>
      cases encodeNullable e.2 (t.encodeNonNull e.2) value with
      | error e => rfl
      | ok j => rfl

/-! ### Objects -/

section Fields

variable {writer? : String → Option Writer} {encoder? : String → Option Encoder}

/-- Members for some fields and further fields are written one after the other. -/
private theorem encodeMembers_append (fs gs : List FieldPlan) :
    encodeMembers encoder? (fs ++ gs) = do
      let ms ← encodeMembers encoder? fs
      let ns ← encodeMembers encoder? gs
      return ms ++ ns := by
  induction fs with
  | nil =>
    rw [List.nil_append, encodeMembers]
    cases encodeMembers encoder? gs <;> rfl
  | cons f fs ih =>
    rw [List.cons_append, encodeMembers, encodeMembers, ih]
    -- An error of the first field ends both sides, and so does one further behind.
    cases encodeField encoder? f with
    | error e => rfl
    | ok m =>
      cases encodeMembers encoder? fs with
      | error e => rfl
      | ok ms =>
        cases encodeMembers encoder? gs with
        | error e => rfl
        | ok ns =>
          simp only [bind, Except.bind, pure, Except.pure, List.append_assoc]

/-- What is written behind `count` members for some members: their text and the new count. -/
def counted (count : Nat) (ms : List (String × Json)) : Chunk × Nat :=
  (separated member count ms, count + ms.length)

/-- Members behind counted members. -/
theorem counted_append (count : Nat) (ms ns : List (String × Json)) :
    counted count (ms ++ ns) =
      ((counted count ms).1 ∘ (counted (counted count ms).2 ns).1,
        (counted (counted count ms).2 ns).2) := by
  simp only [counted, separated_append, List.length_append, Nat.add_assoc]

variable (hfield : ∀ name, writer? name =
  (encoder? name).map fun encoder c => (encoder c).map Json.write)

include hfield

/-- A field is written as the member that it is encoded as, and counted if there is one. -/
private theorem writeField_eq (f : FieldPlan) (count : Nat) :
    writeField writer? f count =
      (encodeField encoder? f).map fun m => counted count m.toList := by
  unfold writeField encodeField
  rw [hfield]
  -- The field is set, unset and primitive, or left out.
  cases encoder? f.name with
  | some encoder =>
    simp only [Option.map_some, writeMember, Except.map_map]
    rfl
  | none =>
    cases f.encoding.primitive? with
    | some s =>
      simp only [Option.map_none, writeMember, Except.map_map]
      rfl
    | none => rfl

/-- Own fields are written as the members that they are encoded as, and counted. -/
theorem writeOwnFields_eq (fs : List FieldPlan) (count : Nat) :
    writeOwnFields writer? fs count = (encodeMembers encoder? fs).map (counted count) := by
  induction fs generalizing count with
  | nil => rfl
  | cons f fs ih =>
    rw [writeOwnFields, encodeMembers, writeField_eq hfield]
    -- The first field comes first, with its error or its member, and the rest by induction.
    cases encodeField encoder? f with
    | error e => rfl
    | ok m =>
      simp only [bind, Except.bind, Except.map, ih]
      cases encodeMembers encoder? fs with
      | error e => rfl
      | ok ms =>
        simp only [pure, Except.pure, counted_append]

/-- The fields of a chain are written as the members for all fields of it. -/
theorem writeFieldsWithin_eq (steps : Nat) (p : ObjectPlan) (count : Nat) :
    t.writeFieldsWithin writer? steps p count =
      Except.map (counted count)
        (t.chainWithin steps p >>= fun plans =>
          encodeMembers encoder? (plans.flatMap (·.fields))) := by
  induction steps generalizing p count with
  | zero =>
    rw [writeFieldsWithin, chainWithin, writeOwnFields_eq hfield]
    simp only [bind, Except.bind, List.flatMap_cons, List.flatMap_nil, List.append_nil]
  | succ steps ih =>
    rw [writeFieldsWithin, chainWithin]
    -- Without a superclass there are only the own fields.
    cases p.superclass with
    | none =>
      simp only [bind, Except.bind, List.flatMap_cons, List.flatMap_nil, List.append_nil,
        writeOwnFields_eq hfield]
    | some name =>
      dsimp only
      -- The superclass may be unknown, and then nothing is written.
      cases t.object name with
      | error e => rfl
      | ok q =>
        simp only [bind, Except.bind, ih]
        cases t.chainWithin steps q with
        | error e => rfl
        | ok above =>
          -- The inherited members come first, and the own ones behind them.
          simp only [pure, Except.pure, List.flatMap_append, List.flatMap_cons, List.flatMap_nil,
            List.append_nil, encodeMembers_append, bind, Except.bind]
          cases encodeMembers encoder? (above.flatMap (·.fields)) with
          | error e => rfl
          | ok ms =>
            simp only [Except.map, writeOwnFields_eq hfield]
            cases encodeMembers encoder? p.fields with
            | error e => rfl
            | ok ns => simp only [counted_append]

/-- An object is written by a class as the tree that it is encoded as. -/
private theorem writeUndispatched_eq (p : ObjectPlan) (tagged : Bool) (typeName : String) :
    t.writeUndispatched p tagged typeName writer? =
      (t.encodeUndispatched p tagged typeName encoder?).map Json.write := by
  unfold writeUndispatched encodeUndispatched chainFields chain
  simp only [writeFieldsWithin_eq hfield]
  -- The chain may end at an unknown name, which both sides find before anything is written.
  cases t.chainWithin t.objects.length p with
  | error e => cases tagged <;> rfl
  | ok plans =>
    simp only [bind, Except.bind, Except.map, pure, Except.pure]
    cases encodeMembers encoder? (plans.flatMap (·.fields)) with
    | error e => cases tagged <;> rfl
    | ok ms =>
      simp only [Except.ok.injEq, ← braced_separated]
      -- A tag counts as the first member, and the fields are written behind it.
      cases tagged with
      | false => rfl
      | true =>
        -- The tag is the first member.
        simp only [if_true, counted, textMember, writeString_eq, separated_append]
        rfl

/-- An object is written as the tree that it is encoded as, whichever class writes it. -/
private theorem writeDispatched_eq (p : ObjectPlan) (typeName : String) :
    t.writeDispatched p typeName writer? =
      (t.encodeDispatched p typeName encoder?).map Json.write := by
  unfold writeDispatched encodeDispatched
  split
  -- The class that the object is handed on to may be unknown.
  · cases t.object typeName with
    | error e => rfl
    | ok q => exact writeUndispatched_eq hfield q true typeName
  · exact writeUndispatched_eq hfield p _ typeName

end Fields

/-! ### Values -/

/-- The writers of an object are those of the values of its fields. -/
private theorem fieldWriters_eq (fields : List (String × Value)) :
    t.fieldWriters fields = fields.map fun f => (f.1, t.writeNonNull f.2) := by
  induction fields with
  | nil => rw [fieldWriters, List.map_nil]
  | cons f rest ih =>
    obtain ⟨name, v⟩ := f
    rw [fieldWriters, ih, List.map_cons]

/-- The writer of a field writes the value of the field. -/
theorem lookup_fieldWriters (fields : List (String × Value)) (name : String) :
    (t.fieldWriters fields).lookup name = (Value.getField? fields name).map t.writeNonNull := by
  rw [fieldWriters_eq, Value.getField?]
  induction fields with
  | nil => rfl
  | cons f rest ih =>
    obtain ⟨n, v⟩ := f
    simp only [List.map_cons, List.lookup_cons]
    -- The first field has the name, or it is looked for in the rest.
    cases name == n with
    | true => rfl
    | false => exact ih

/-- Whether a value is written as it is encoded, through whatever codec. -/
def WritesTree (t : CodecTable) (v : Value) : Prop :=
  ∀ c, t.writeNonNull v c = (t.encodeNonNull v c).map Json.write

section Parts

variable {v : Value} {items : List Value} {entries : List (Value × Value)} {c key value : CodecRef}

/-- A container is written as the array that it is encoded as. -/
private theorem writeArray_eq (h : ∀ w ∈ items, t.WritesTree w) :
    (t.writeItems items c 0).map bracketed =
      ((t.encodeItems items c).map Json.array).map Json.write := by
  rw [writeItems_eq fun w hw => h w hw c, Except.map_map, Except.map_map]
  simp only [bracketed_separated]

/-- A map is written as the object that it is encoded as. -/
private theorem writeObject_eq {key : Option CodecRef}
    (h : ∀ w ∈ (Value.map entries).parts, t.WritesTree w) :
    (t.writeEntries entries key value 0).map braced =
      ((t.encodeEntries entries key value).map Json.object).map Json.write := by
  have hentries : ∀ e ∈ entries, t.WritesTree e.1 ∧ t.WritesTree e.2 := fun e he =>
    (Value.mem_parts_of_entry he).imp (h e.1) (h e.2)
  rw [writeEntries_eq hentries, Except.map_map, Except.map_map]
  simp only [braced_separated]

/-- A map in the paired form is written as the object that it is encoded as. -/
private theorem writeNonNull_pairedMap_eq (h : ∀ w ∈ (Value.map entries).parts, t.WritesTree w) :
    t.writeNonNull (.map entries) (.pairedMap key value) =
      (t.encodeNonNull (.map entries) (.pairedMap key value)).map Json.write := by
  have hkeys : ∀ e ∈ entries, t.writeNonNull e.1 key = (t.encodeNonNull e.1 key).map Json.write :=
    fun e he => h e.1 (Value.mem_parts_of_entry he).1 key
  have hvalues : ∀ e ∈ entries,
      t.writeNonNull e.2 value = (t.encodeNonNull e.2 value).map Json.write :=
    fun e he => h e.2 (Value.mem_parts_of_entry he).2 value
  rw [writeNonNull, encodeNonNull, writeKeys_eq hkeys]
  -- Keys are written before values, so an error in them comes first.
  cases t.encodeKeys entries key with
  | error e => rfl
  | ok keys =>
    rw [writeValues_eq hvalues]
    cases t.encodeValues entries value with
    | error e => rfl
    | ok values =>
      simp only [Except.map, bind, Except.bind, pure, Except.pure, pairedForm_separated]

/-- The writer of a field writes the tree that the field is encoded as. -/
private theorem lookup_fieldWriters_eq {typeName : String} {fields : List (String × Value)}
    (h : ∀ w ∈ (Value.object typeName fields).parts, t.WritesTree w) (name : String) :
    (t.fieldWriters fields).lookup name =
      ((t.encodeFields fields).lookup name).map fun encoder c => (encoder c).map Json.write := by
  rw [lookup_fieldWriters, lookup_encodeFields]
  -- A field that is set has a writer and an encoder, which agree on its value.
  cases hw : Value.getField? fields name with
  | none => rfl
  | some w =>
    simp only [Option.map_some, Option.some.injEq]
    exact funext (h w (Value.mem_parts_of_getField? hw))

/-- The codec of a class or an enum writes what it encodes. -/
private theorem writeNonNull_generated_eq {name : String} (h : ∀ w ∈ v.parts, t.WritesTree w) :
    t.writeNonNull v (.generated name) = (t.encodeNonNull v (.generated name)).map Json.write := by
  rw [writeNonNull.eq_def, encodeNonNull.eq_def]
  dsimp only
  -- A class is looked for before an enum.
  cases t.object? name with
  | some p =>
    cases v with
    | object typeName fields => exact writeDispatched_eq (lookup_fieldWriters_eq h) p typeName
    | _ => rfl
  | none => cases t.enum? name <;> rfl

/-- Without a declared type a value is written as it is encoded. -/
private theorem writeNonNull_any_eq (h : ∀ w ∈ v.parts, t.WritesTree w) :
    t.writeNonNull v .any = (t.encodeNonNull v .any).map Json.write := by
  rw [writeNonNull.eq_def, encodeNonNull.eq_def]
  cases v with
  -- The leaves first, then what is made of parts.
  | null =>
    simp only [Except.map, Except.ok.injEq]
    funext rest
    rw [Json.write]
  | string s => simp only [Except.map, writeString_eq]
  | enum typeName variant => simp only [Except.map, writeString_eq]
  | sequence shape items => exact writeArray_eq h
  | map entries => exact writeObject_eq h
  | object typeName fields =>
    dsimp only
    cases t.object typeName with
    | error e => rfl
    | ok p => exact writeUndispatched_eq (lookup_fieldWriters_eq h) p true typeName
  | _ => rfl

end Parts

/-- A value is written as it is encoded. -/
theorem writeNonNull_eq (v : Value) :
    ∀ c, t.writeNonNull v c = (t.encodeNonNull v c).map Json.write := by
  -- The writers of the parts are used with any codec, so the codec is general.
  induction v using Value.induction with
  | step v ih =>
    intro c
    cases c with
    -- Leaves are written as the text of what they are encoded as.
    | scalar s => rw [writeNonNull, encodeNonNull]
    | string => rw [writeNonNull, encodeNonNull]
    | date => rw [writeNonNull, encodeNonNull]
    | timestamp => rw [writeNonNull, encodeNonNull]
    | localDate => rw [writeNonNull, encodeNonNull]
    | sequence shape element =>
      rw [writeNonNull.eq_def, encodeNonNull.eq_def]
      cases v with
      | sequence shape' items =>
        dsimp only
        split
        · exact writeArray_eq ih
        · rfl
      | _ => rfl
    | textKeyMap value =>
      rw [writeNonNull.eq_def, encodeNonNull.eq_def]
      cases v with
      | map entries => exact writeObject_eq ih
      | _ => rfl
    | parsedKeyMap key value =>
      rw [writeNonNull.eq_def, encodeNonNull.eq_def]
      cases v with
      | map entries => exact writeObject_eq ih
      | _ => rfl
    | pairedMap key value =>
      cases v with
      | map entries => exact writeNonNull_pairedMap_eq ih
      | _ => rw [writeNonNull.eq_def, encodeNonNull.eq_def]; rfl
    | generated name => exact writeNonNull_generated_eq ih
    | any => exact writeNonNull_any_eq ih

/-- The text of a value is that of its tree. -/
theorem encode_eq (c : CodecRef) (v : Value) :
    t.encode c v = (t.encodeJson c v).map Json.render := by
  rw [encode, encodeJson, writeNullable_eq (writeNonNull_eq v c), Except.map_map]
  rfl

/-- The text that the codec of a name writes is that of the tree. -/
theorem writeNamed_eq (name : String) (v : Value) :
    t.writeNamed name v = (t.encodeNamed name v).map Json.render := by
  rw [writeNamed, encodeNamed, writeNonNull_eq, Except.map_map]
  rfl

/-- Whatever a table writes for a value, through a reference or through the codec of a name, is one
JSON document. -/
theorem exists_parse_of_written {t : CodecTable} {v : Value} {text : String}
    (h : (∃ c, t.encode c v = .ok text) ∨ ∃ name, t.writeNamed name v = .ok text) :
    ∃ j, Json.parse text = .ok j := by
  rcases h with ⟨c, h⟩ | ⟨name, h⟩
  -- The text is that of a readable tree, which parses as the tree once reread.
  · rw [encode_eq, Except.map_eq_ok] at h
    obtain ⟨j, hj, rfl⟩ := h
    exact ⟨j.reread, Json.parse_render (readable_encodeJson hj)⟩
  · rw [writeNamed_eq, Except.map_eq_ok] at h
    obtain ⟨j, hj, rfl⟩ := h
    exact ⟨j.reread, Json.parse_render (readable_encodeNonNull hj)⟩

/-- A dog without a name, whose superclass has no fields, handed on from the codec of pets. -/
theorem exists_parse_of_written_dog :
    ∃ j, Json.parse "\x7b\"_type_\":\"Dog\",\"age\":3\x7d" = .ok j :=
  exists_parse_of_written (t := ofPlans defaultTag
      [.object ⟨"Pet", true, none, ["Dog"], []⟩,
        .object ⟨"Dog", false, some "Pet", [],
          [⟨"age", "age", false, .primitive .int⟩, ⟨"name", "name", true, .string⟩]⟩])
    (v := .object "Dog" [("age", .int 3)])
    (Or.inl ⟨.generated "Pet", by decide +kernel⟩)

end CodecTable

end GraphCodec
