import GraphCodec.Proofs.Json.Nesting
import GraphCodec.Proofs.Json.Numbers
import GraphCodec.Proofs.Json.StringScan

/-!
# Written JSON reads back

The text of a JSON value is one JSON document, and it reads back as the value with every number
replaced by what its own text denotes (`parse_render`).  An integer that fits into 64 bits denotes
itself (`Number.reread?_integer`), so a value without other numbers reads back unchanged.

The scanner takes the text of a value in one piece: from a state in which a value is due it gets to
the state in which that value is complete (`Scanner.run_write`), whatever arrays and objects are
open around it.
-/

namespace GraphCodec.Json

/-! ### What reads back -/

/-- The number that the text of a number reads back as. -/
def Number.reread (n : Number) : Number := n.reread?.getD n

mutual

/-- Whether the text of every number reads back. -/
def Readable : Json → Prop
  | number n => n.reread?.isSome
  | array items => ReadableItems items
  | object members => ReadableMembers members
  | null | bool _ | string _ => True

/-- Whether the text of every number in some elements reads back. -/
def ReadableItems : List Json → Prop
  | [] => True
  | j :: rest => j.Readable ∧ ReadableItems rest

/-- Whether the text of every number in some members reads back. -/
def ReadableMembers : List (String × Json) → Prop
  | [] => True
  | (_, j) :: rest => j.Readable ∧ ReadableMembers rest

end

mutual

/-- What the text of a value reads back as. -/
def reread : Json → Json
  | null => null
  | bool b => bool b
  | number n => number n.reread
  | string s => string s
  | array items => array (rereadItems items)
  | object members => object (rereadMembers members)

/-- What the texts of elements read back as. -/
def rereadItems : List Json → List Json
  | [] => []
  | j :: rest => j.reread :: rereadItems rest

/-- What the texts of members read back as. -/
def rereadMembers : List (String × Json) → List (String × Json)
  | [] => []
  | (name, j) :: rest => (name, j.reread) :: rereadMembers rest

end

/-- Items are read back one by one. -/
theorem rereadItems_eq_map (items : List Json) : rereadItems items = items.map reread := by
  induction items with
  | nil => rfl
  | cons j rest ih => rw [rereadItems, ih, List.map_cons]

/-- Members are read back one by one, under their names. -/
theorem rereadMembers_eq_map (members : List (String × Json)) :
    rereadMembers members = members.map fun m => (m.1, m.2.reread) := by
  induction members with
  | nil => rfl
  | cons m rest ih =>
    obtain ⟨name, j⟩ := m
    rw [rereadMembers, ih, List.map_cons]

/-- Items are readable if each of them is. -/
theorem readableItems_iff {items : List Json} :
    ReadableItems items ↔ ∀ j ∈ items, j.Readable := by
  induction items with
  | nil => simp [ReadableItems]
  | cons j rest ih => simp [ReadableItems, ih]

/-- Members are readable if the value of each is. -/
theorem readableMembers_iff {members : List (String × Json)} :
    ReadableMembers members ↔ ∀ m ∈ members, m.2.Readable := by
  induction members with
  | nil => simp [ReadableMembers]
  | cons m rest ih =>
    obtain ⟨name, j⟩ := m
    simp [ReadableMembers, ih]

/-! ### The scan of a written value -/

namespace Scanner

variable {frames : List Frame} {rest : List Char}

/-- The text of a number is scanned as the number that it reads back as. -/
private theorem run_number {n : Number} (hn : n.reread?.isSome) (hrest : EndsValue rest) :
    run ⟨frames, .value⟩ (n.text.toList ++ rest) =
      run (complete frames (.number n.reread)) rest := by
  obtain ⟨m, hm⟩ := Option.isSome_iff_exists.1 hn
  have hdraft : numeralDraft n.parts.numeral = .number n.reread := by
    have hm' : Number.ofNumeral? n.parts.numeral = some m := hm
    simp only [numeralDraft, hm', Number.reread, hm, Option.getD_some]
  rw [n.toList_text, run_numberText n.wellFormed_parts hrest, hdraft]

/-! A character that is no letter and no digit decides the step by itself. -/

/-- An opening bracket begins an array, in which a value is due. -/
theorem run_open_array :
    run ⟨frames, .value⟩ ('[' :: rest) = run ⟨.array [] :: frames, .value⟩ rest :=
  run_cons rfl

/-- An opening brace begins an object, in which a name is due. -/
theorem run_open_object :
    run ⟨frames, .value⟩ ('{' :: rest) = run ⟨frames, .name []⟩ rest :=
  run_cons rfl

/-- Behind a colon the value of the member is due. -/
theorem run_colon (members : List Draft.Member) (name : String) :
    run ⟨frames, .colon members (.ok name)⟩ (':' :: rest) =
      run ⟨.object members (.ok name) :: frames, .value⟩ rest :=
  run_cons rfl

/-- Behind a comma the next element is due. -/
theorem run_comma_element (items : List Draft) :
    run ⟨frames, .ended (.element items)⟩ (',' :: rest) =
      run ⟨.array items :: frames, .value⟩ rest :=
  run_cons rfl

/-- Behind a comma the next name is due. -/
theorem run_comma_member (members : List Draft.Member) :
    run ⟨frames, .ended (.member members)⟩ (',' :: rest) = run ⟨frames, .name members⟩ rest :=
  run_cons rfl

mutual

/-- The text of a value is scanned as the value that it reads back as. -/
theorem run_write (j : Json) (frames : List Frame) (rest : List Char) (hj : j.Readable)
    (hrest : EndsValue rest) :
    run ⟨frames, .value⟩ (j.write rest) = run (complete frames j.reread.toDraft) rest := by
  match j with
  -- The words and the empty containers are read character by character.
  | .null => exact (run_cons rfl).trans ((run_cons rfl).trans ((run_cons rfl).trans (run_cons rfl)))
  | .bool true =>
    exact (run_cons rfl).trans ((run_cons rfl).trans ((run_cons rfl).trans (run_cons rfl)))
  | .bool false =>
    exact (run_cons rfl).trans ((run_cons rfl).trans ((run_cons rfl).trans
      ((run_cons rfl).trans (run_cons rfl))))
  | .number n => exact run_number hj hrest
  | .string s => exact run_string s
  | .array [] => exact (run_cons rfl).trans (run_cons rfl)
  | .array (j :: items) =>
    have hj : j.Readable ∧ ReadableItems items := hj
    -- A comma or a closing bracket follows, and either ends a number.
    have hend : EndsValue (writeItems items (']' :: rest)) := by
      cases items with
      | nil => exact endsValue_cons (Or.inr (Or.inl rfl))
      | cons k items => exact endsValue_cons (Or.inl rfl)
    rw [write, run_open_array, run_write j (.array [] :: frames) _ hj.1 hend]
    exact run_writeItems items frames rest [j.reread.toDraft] hj.2
  | .object [] => exact (run_cons rfl).trans (run_cons rfl)
  | .object ((name, j) :: members) =>
    have hj : j.Readable ∧ ReadableMembers members := hj
    -- The same holds for members.
    have hend : EndsValue (writeMembers members ('}' :: rest)) := by
      cases members with
      | nil => exact endsValue_cons (Or.inr (Or.inr rfl))
      | cons m members => exact endsValue_cons (Or.inl rfl)
    rw [write, run_open_object, run_name, run_colon,
      run_write j (.object [] (.ok name) :: frames) _ hj.1 hend]
    exact run_writeMembers members frames rest [(.ok name, j.reread.toDraft)] hj.2

/-- The elements after the first and the end of an array; the elements before them are last
first. -/
theorem run_writeItems (items : List Json) (frames : List Frame) (rest : List Char)
    (before : List Draft) (hitems : ReadableItems items) :
    run ⟨frames, .ended (.element before)⟩ (writeItems items (']' :: rest)) =
      run (complete frames (.array (before.reverse ++ toDrafts (rereadItems items)) none))
        rest := by
  match items with
  | [] =>
    rw [writeItems, rereadItems, toDrafts, List.append_nil]
    -- The array ends.
    exact run_cons rfl
  | j :: items =>
    have hend : EndsValue (writeItems items (']' :: rest)) := by
      cases items with
      | nil => exact endsValue_cons (Or.inr (Or.inl rfl))
      | cons k items => exact endsValue_cons (Or.inl rfl)
    -- The element is placed behind those before it.
    have hplace : complete (.array before :: frames) j.reread.toDraft =
        ⟨frames, .ended (.element (j.reread.toDraft :: before))⟩ := rfl
    rw [writeItems, run_comma_element, run_write j (.array before :: frames) _ hitems.1 hend,
      hplace, run_writeItems items frames rest (j.reread.toDraft :: before) hitems.2,
      List.reverse_cons, List.append_assoc, List.singleton_append, rereadItems, toDrafts]

/-- The members after the first and the end of an object; the members before them are last
first. -/
theorem run_writeMembers (members : List (String × Json)) (frames : List Frame)
    (rest : List Char) (before : List Draft.Member) (hmembers : ReadableMembers members) :
    run ⟨frames, .ended (.member before)⟩ (writeMembers members ('}' :: rest)) =
      run (complete frames
        (.object (before.reverse ++ toDraftMembers (rereadMembers members)) none)) rest := by
  match members with
  | [] =>
    rw [writeMembers, rereadMembers, toDraftMembers, List.append_nil]
    -- The object ends.
    exact run_cons rfl
  | (name, j) :: members =>
    have hmembers : j.Readable ∧ ReadableMembers members := hmembers
    have hend : EndsValue (writeMembers members ('}' :: rest)) := by
      cases members with
      | nil => exact endsValue_cons (Or.inr (Or.inr rfl))
      | cons m members => exact endsValue_cons (Or.inl rfl)
    -- The member is placed behind those before it.
    have hplace : complete (.object before (.ok name) :: frames) j.reread.toDraft =
        ⟨frames, .ended (.member ((.ok name, j.reread.toDraft) :: before))⟩ := rfl
    rw [writeMembers, run_comma_member, run_name, run_colon,
      run_write j (.object before (.ok name) :: frames) _ hmembers.1 hend, hplace,
      run_writeMembers members frames rest ((.ok name, j.reread.toDraft) :: before) hmembers.2,
      List.reverse_cons, List.append_assoc, List.singleton_append, rereadMembers, toDraftMembers]

end

end Scanner

/-- The text of a value is one JSON document. -/
theorem scan_render {j : Json} (hj : j.Readable) :
    Document.scan j.render = ⟨j.reread.toDraft, false⟩ := by
  rw [Document.scan, render, String.toList_ofList, Scanner.start,
    Scanner.run_write j [] [] hj endsValue_nil]
  rfl

/-- The text of a value reads back as the value with every number as its text denotes it. -/
theorem parse_render {j : Json} (hj : j.Readable) : parse j.render = .ok j.reread := by
  rw [parse, scan_render hj, Document.read, settle_toDraft]
  rfl

end GraphCodec.Json
