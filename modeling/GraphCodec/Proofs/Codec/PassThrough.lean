import GraphCodec.Proofs.Codec.ReadBack
import GraphCodec.Proofs.Json.Lossless
import GraphCodec.Proofs.Scalar.Integers

/-!
# Documents without types

A position without a declared type is read by the form of what is there: arrays as lists, objects
as maps with text keys, integers as `int` or, beyond 32 bits, as `long`.  If no object has a tag and
all numbers are integers, the table has no part in what a document is read as (`Json.plainValue`).

Such a value is written as the document it was read from, except that a `long` is written as a
string (`Json.longsQuoted`), and so is a string when it is read again.  From then on nothing changes
(`CodecTable.decode_encode_any`).
-/

namespace GraphCodec

namespace Json

/-! ### Plain documents -/

/-- Whether no object in a document has a member of the name of the tag, and every number is an
integer of 64 bits. -/
inductive IsPlain (tag : String) : Json → Prop where
  | null : IsPlain tag null
  | bool (b : Bool) : IsPlain tag (bool b)
  | integer {i : Int} (hlow : -2 ^ 63 ≤ i) (hhigh : i < 2 ^ 63) :
    IsPlain tag (number (.integer i))
  | string (s : String) : IsPlain tag (string s)
  | array {items : List Json} (h : ∀ j ∈ items, IsPlain tag j) : IsPlain tag (array items)
  | object {members : List (String × Json)} (htag : ∀ m ∈ members, m.1 ≠ tag)
    (h : ∀ m ∈ members, IsPlain tag m.2) : IsPlain tag (object members)

/-- Whether an integer has at most 32 bits. -/
def FitsInt (i : Int) : Prop := -2 ^ 31 ≤ i ∧ i < 2 ^ 31

instance (i : Int) : Decidable (FitsInt i) := inferInstanceAs (Decidable (_ ∧ _))

mutual

/-- The value of a document in which no object has a tag. -/
def plainValue : Json → Value
  | null => .null
  | bool b => .boolean b
  | number (.integer i) => if FitsInt i then .int (.ofInt i) else .long (.ofInt i)
  | number n => .double n.toDouble
  | string s => .string s
  | array items => .sequence .list (plainItems items)
  | object members => .map (plainEntries members)

/-- The values of elements. -/
def plainItems : List Json → List Value
  | [] => []
  | j :: rest => j.plainValue :: plainItems rest

/-- The entries that members stand for, in order. -/
def plainEntries : List (String × Json) → List (Value × Value)
  | [] => []
  | (name, j) :: rest => (.string name, j.plainValue) :: plainEntries rest

end

mutual

/-- A document with every integer of more than 32 bits in quotes. -/
def longsQuoted : Json → Json
  | number (.integer i) =>
    if FitsInt i then number (.integer i) else string (Decimal.intText i)
  | array items => array (longsQuotedItems items)
  | object members => object (longsQuotedMembers members)
  | j => j

/-- Elements with every integer of more than 32 bits in quotes. -/
def longsQuotedItems : List Json → List Json
  | [] => []
  | j :: rest => j.longsQuoted :: longsQuotedItems rest

/-- Members with every integer of more than 32 bits in quotes. -/
def longsQuotedMembers : List (String × Json) → List (String × Json)
  | [] => []
  | (name, j) :: rest => (name, j.longsQuoted) :: longsQuotedMembers rest

end

/-- The values of items, one by one. -/
theorem plainItems_eq_map (items : List Json) : plainItems items = items.map plainValue := by
  induction items with
  | nil => rfl
  | cons j rest ih => rw [plainItems, ih, List.map_cons]

/-- The values of members, each with its name as a key. -/
theorem plainEntries_eq_map (members : List (String × Json)) :
    plainEntries members = members.map fun m => (.string m.1, m.2.plainValue) := by
  induction members with
  | nil => rfl
  | cons m rest ih =>
    obtain ⟨name, j⟩ := m
    rw [plainEntries, ih, List.map_cons]

/-- Integers are quoted in each item. -/
theorem longsQuotedItems_eq_map (items : List Json) :
    longsQuotedItems items = items.map longsQuoted := by
  induction items with
  | nil => rfl
  | cons j rest ih => rw [longsQuotedItems, ih, List.map_cons]

/-- Integers are quoted in the value of each member. -/
theorem longsQuotedMembers_eq_map (members : List (String × Json)) :
    longsQuotedMembers members = members.map fun m => (m.1, m.2.longsQuoted) := by
  induction members with
  | nil => rfl
  | cons m rest ih =>
    obtain ⟨name, j⟩ := m
    rw [longsQuotedMembers, ih, List.map_cons]

variable {tag : String} {j : Json}

/-- A plain document is one whose text parses as itself. -/
private theorem IsPlain.isExact (h : j.IsPlain tag) : j.IsExact := by
  induction h with
  | null => exact .null
  | bool b => exact .bool b
  | integer hlow hhigh => exact .integer hlow (by omega)
  | string s => exact .string s
  | array _ ih => exact .array ih
  | object _ _ ih => exact .object ih

/-- Quoting integers makes no other numbers and changes no names. -/
private theorem isPlain_longsQuoted (h : j.IsPlain tag) : j.longsQuoted.IsPlain tag := by
  induction h with
  | null => exact .null
  | bool b => exact .bool b
  -- An integer is plain as it is, and as a string once it is quoted.
  | integer hlow hhigh =>
    rw [longsQuoted]
    split
    case isTrue => exact .integer hlow hhigh
    case isFalse => exact .string _
  | string s => exact .string s
  | array _ ih =>
    rw [longsQuoted, longsQuotedItems_eq_map]
    exact .array (List.forall_mem_map.2 ih)
  | object htag _ ih =>
    rw [longsQuoted, longsQuotedMembers_eq_map]
    exact .object (List.forall_mem_map.2 htag) (List.forall_mem_map.2 ih)

/-- After quoting there is nothing left to quote. -/
private theorem longsQuoted_longsQuoted (h : j.IsPlain tag) :
    j.longsQuoted.longsQuoted = j.longsQuoted := by
  induction h with
  | null | bool | string => rfl
  -- An integer of 32 bits is never quoted, and a string is left alone.
  | @integer i hlow hhigh =>
    rw [longsQuoted]
    split
    case isTrue hfits => rw [longsQuoted, if_pos hfits]
    case isFalse => rfl
  | array _ ih =>
    rw [longsQuoted, longsQuotedItems_eq_map, longsQuoted, longsQuotedItems_eq_map, List.map_map]
    exact congrArg array (List.map_congr_left ih)
  | object _ _ ih =>
    rw [longsQuoted, longsQuotedMembers_eq_map, longsQuoted, longsQuotedMembers_eq_map,
      List.map_map]
    exact congrArg object (List.map_congr_left fun m hm => Prod.ext rfl (ih m hm))

end Json

/-! ### Values -/

namespace Value

mutual

/-- Puts the digits of every `long` in its place as a string, at any depth of lists and maps. -/
def longsAsTexts : Value → Value
  | long n => string (Decimal.intText n.toInt)
  | sequence shape items => sequence shape (longsAsTextsItems items)
  | map entries => map (longsAsTextsEntries entries)
  | v => v

/-- Puts texts in place of the longs in elements. -/
def longsAsTextsItems : List Value → List Value
  | [] => []
  | v :: rest => v.longsAsTexts :: longsAsTextsItems rest

/-- Puts texts in place of the longs in entries. -/
def longsAsTextsEntries : List (Value × Value) → List (Value × Value)
  | [] => []
  | (k, v) :: rest => (k.longsAsTexts, v.longsAsTexts) :: longsAsTextsEntries rest

end

/-- Longs become texts in each item. -/
private theorem longsAsTextsItems_eq_map (items : List Value) :
    longsAsTextsItems items = items.map longsAsTexts := by
  induction items with
  | nil => rfl
  | cons v rest ih => rw [longsAsTextsItems, ih, List.map_cons]

/-- Longs become texts in the keys and values of each entry. -/
private theorem longsAsTextsEntries_eq_map (entries : List (Value × Value)) :
    longsAsTextsEntries entries = entries.map fun e => (e.1.longsAsTexts, e.2.longsAsTexts) := by
  induction entries with
  | nil => rfl
  | cons e rest ih =>
    obtain ⟨k, v⟩ := e
    rw [longsAsTextsEntries, ih, List.map_cons]

end Value

/-- The value of a document with quoted integers has texts in place of the longs. -/
private theorem Json.plainValue_longsQuoted {tag : String} {j : Json} (h : j.IsPlain tag) :
    j.longsQuoted.plainValue = j.plainValue.longsAsTexts := by
  induction h with
  | null | bool | string => rfl
  | @integer i hlow hhigh =>
    rw [longsQuoted, plainValue]
    -- An integer of 32 bits stays a number; a longer one becomes a text on both sides.
    split
    case isTrue hfits =>
      rw [plainValue, if_pos hfits]
      rfl
    case isFalse =>
      rw [plainValue, Value.longsAsTexts, Int64.toInt_ofInt_of_le hlow hhigh]
  -- Items and members on both sides are compared one by one.
  | array _ ih =>
    rw [longsQuoted, longsQuotedItems_eq_map, plainValue, plainItems_eq_map, List.map_map,
      plainValue, plainItems_eq_map, Value.longsAsTexts, Value.longsAsTextsItems_eq_map,
      List.map_map]
    exact congrArg (Value.sequence .list) (List.map_congr_left ih)
  | object _ _ ih =>
    rw [longsQuoted, longsQuotedMembers_eq_map, plainValue, plainEntries_eq_map, List.map_map,
      plainValue, plainEntries_eq_map, Value.longsAsTexts, Value.longsAsTextsEntries_eq_map,
      List.map_map]
    exact congrArg Value.map (List.map_congr_left fun m hm => Prod.ext rfl (ih m hm))

namespace CodecTable

variable {t : CodecTable} {j : Json}

/-- An object that has no member of the name of the tag is of no class. -/
private theorem taggedObject?_eq_none {members : List (String × Json)}
    (h : ∀ m ∈ members, m.1 ≠ t.tagMember) : t.taggedObject? members = none := by
  have htag : Json.member? members t.tagMember = none :=
    List.lookup_eq_none_iff.2 fun m hm => bne_iff_ne.2 (h m hm).symm
  rw [taggedObject?, htag]
  rfl

/-- An integer is read as an int if it has 32 bits, and as a long otherwise. -/
private theorem numberValue_integer {i : Int} (hlow : -2 ^ 63 ≤ i) (hhigh : i < 2 ^ 63) :
    numberValue (.integer i) = (Json.number (.integer i)).plainValue := by
  have hint64 : (Json.Number.integer i).int64? = some i := if_pos ⟨hlow, hhigh⟩
  have hsome : ∀ k, Scalar.int.inRange? i = some k ↔ i = k ∧ -2 ^ 31 ≤ i ∧ i ≤ 2 ^ 31 - 1 :=
    fun k => Scalar.inRange?_eq_some_iff rfl
  -- The range of an int is that of 32 bits.
  have hrange : (Scalar.int.inRange? i).isSome ↔ Json.FitsInt i := by
    simp only [Option.isSome_iff_exists, hsome, exists_eq_left', Int.le_sub_one_iff, Json.FitsInt]
  simp only [numberValue, hint64, hrange, Json.plainValue]

/-- A plain document is read as its value. -/
private theorem decodeJson_any_plain (h : j.IsPlain t.tagMember) :
    t.decodeJson .any j = .ok j.plainValue := by
  induction h with
  | null | bool | string => rw [decodeJson]; rfl
  -- Integers are read by their size.
  | integer hlow hhigh => rw [decodeJson, numberValue_integer hlow hhigh]
  | array _ ih =>
    rw [decodeJson_any_array, Except.mapM_eq_map ih, Json.plainValue, Json.plainItems_eq_map]
    rfl
  | @object members htag _ ih =>
    -- An object has no tag, so each member is read on its own under its name.
    have hmembers : ∀ m ∈ members, (t.decodeJson .any m.2).map (Value.string m.1, ·) =
        .ok (Value.string m.1, m.2.plainValue) := fun m hm => by rw [ih m hm]; rfl
    rw [decodeJson_any_untagged (taggedObject?_eq_none htag), Except.mapM_eq_map hmembers,
      Json.plainValue, Json.plainEntries_eq_map]
    rfl

/-- The value of a plain document is written as the document with quoted integers. -/
private theorem encodeJson_any_plain (h : j.IsPlain t.tagMember) :
    t.encodeJson .any j.plainValue = .ok j.longsQuoted := by
  induction h with
  | null | bool | string => rfl
  | @integer i hlow hhigh =>
    rw [Json.plainValue, Json.longsQuoted]
    -- An int is written as a number, a long as a text.
    split
    case isTrue hfits =>
      rw [encodeJson_of_isNull rfl, encodeNonNull, Scalar.encode,
        Int32.toInt_ofInt_of_le hfits.1 hfits.2]
    case isFalse =>
      rw [encodeJson_of_isNull rfl, encodeNonNull, Scalar.encode,
        Int64.toInt_ofInt_of_le hlow hhigh]
  | @array items _ ih =>
    -- Items are written one by one.
    have hitems : (items.map Json.plainValue).mapM (t.encodeJson .any) =
        .ok (items.map Json.longsQuoted) := by
      rw [List.mapM_map]
      exact Except.mapM_eq_map ih
    rw [Json.plainValue, Json.plainItems_eq_map, encodeJson_of_isNull rfl, encodeNonNull,
      encodeItems_eq, hitems, Json.longsQuoted, Json.longsQuotedItems_eq_map]
    rfl
  | @object members _ _ ih =>
    -- Members are written one by one under the names that they were read from.
    have hmember : ∀ m ∈ members, t.encodeEntry none .any (.string m.1, m.2.plainValue) =
        .ok (m.1, m.2.longsQuoted) := fun m hm => by rw [encodeEntry, ih m hm]; rfl
    have hmembers : (members.map fun m => (Value.string m.1, m.2.plainValue)).mapM
        (t.encodeEntry none .any) = .ok (members.map fun m => (m.1, m.2.longsQuoted)) := by
      rw [List.mapM_map]
      exact Except.mapM_eq_map hmember
    rw [Json.plainValue, Json.plainEntries_eq_map, encodeJson_of_isNull rfl, encodeNonNull,
      encodeEntries_eq, hmembers, Json.longsQuoted, Json.longsQuotedMembers_eq_map]
    rfl

/-! ### Texts -/

/-- A plain document is read as its value, and the value is written as the document with every
`long` in quotes.  That is read as the same value with texts in place of the longs, and this value
is written as the same text again. -/
theorem decode_encode_any {text : String} (hparse : Json.parse text = .ok j)
    (hj : j.IsPlain t.tagMember) :
    t.decode .any text = .ok j.plainValue ∧
      t.encode .any j.plainValue = .ok j.longsQuoted.render ∧
      t.decode .any j.longsQuoted.render = .ok j.plainValue.longsAsTexts ∧
      t.encode .any j.plainValue.longsAsTexts = .ok j.longsQuoted.render := by
  -- What is written is plain as well, so everything holds of it in turn.
  have hquoted := Json.isPlain_longsQuoted hj
  have hreparse := Json.parse_render_of_isExact hquoted.isExact
  -- The four steps: reading, writing, reading again and writing again.
  refine ⟨?_, ?_, ?_, ?_⟩
  · rw [CodecTable.decode, hparse]
    exact decodeJson_any_plain hj
  · rw [encode_eq, encodeJson_any_plain hj]
    rfl
  · rw [CodecTable.decode, hreparse, ← Json.plainValue_longsQuoted hj]
    exact decodeJson_any_plain hquoted
  · -- The text stands for a plain document whose value this is, and has nothing left to quote.
    rw [encode_eq, ← Json.plainValue_longsQuoted hj, encodeJson_any_plain hquoted,
      Json.longsQuoted_longsQuoted hj]
    rfl

/-- Two members of one name are two entries, and nothing but the greater integers changes. -/
theorem decode_encode_any_readings :
    let t := empty defaultTag
    let read := Value.map [(.string "n", .sequence .list [.int 2147483647, .long 2147483648]),
      (.string "n", .map [(.string "low", .long (-2147483649)), (.string "no", .null)])]
    let reread := Value.map [(.string "n", .sequence .list [.int 2147483647, .string "2147483648"]),
      (.string "n", .map [(.string "low", .string "-2147483649"), (.string "no", .null)])]
    let text :=
      "\x7b\"n\":[2147483647,2147483648],\"n\":\x7b\"low\":-2147483649,\"no\":null\x7d\x7d"
    let written :=
      "\x7b\"n\":[2147483647,\"2147483648\"],\"n\":\x7b\"low\":\"-2147483649\",\"no\":null\x7d\x7d"
    t.decode .any text = .ok read ∧ t.encode .any read = .ok written ∧
      t.decode .any written = .ok reread ∧ t.encode .any reread = .ok written := by
  intro t read reread text written
  let j := Json.object [
    ("n", .array [.number (.integer 2147483647), .number (.integer 2147483648)]),
    ("n", .object [("low", .number (.integer (-2147483649))), ("no", .null)])]
  -- The document is plain, for which its integers have to be in range and its names no tags.
  have hinner : Json.IsPlain t.tagMember
      (.object [("low", .number (.integer (-2147483649))), ("no", .null)]) :=
    .object (by decide) (by simpa using ⟨.integer (by decide) (by decide), .null⟩)
  have hplain : j.IsPlain t.tagMember := .object (by decide) <| by
    simpa [hinner] using .array
      (by simpa using ⟨.integer (by decide) (by decide), .integer (by decide) (by decide)⟩)
  -- The four values of the claim are those of the document.
  have hparse : Json.parse text = .ok j := by cbv
  have hread : j.plainValue = read := by cbv
  have hreread : read.longsAsTexts = reread := by cbv
  have hwritten : j.longsQuoted.render = written := by cbv
  have hstable := decode_encode_any hparse hplain
  rwa [hread, hreread, hwritten] at hstable

end CodecTable

end GraphCodec
