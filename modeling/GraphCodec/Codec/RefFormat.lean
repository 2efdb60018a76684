import GraphCodec.Codec.Ref
import GraphCodec.Json.Reader
import GraphCodec.Json.Weight

/-!
# The written form of codec references

A reference is written as an object with the member `codec`, which names the sort of codec, and the
member `of`, which holds what the sort needs: the kind of a scalar, the name of a user type, the
codec of the elements, or the codecs of the keys and values.

`CodecRef.toJson` writes a reference and `CodecRef.read` reads it, from an object with its members
in any order or from an array of their values.
-/

namespace GraphCodec

namespace CodecRef

/-- The written form of a reference. -/
def toJson : CodecRef → Json
  | scalar s => .object [("codec", .string "scalar"), ("of", .string s.name)]
  | string => .object [("codec", .string "str")]
  | date => .object [("codec", .string "date")]
  | timestamp => .object [("codec", .string "timestamp")]
  | localDate => .object [("codec", .string "local_date")]
  | any => .object [("codec", .string "any")]
  | generated name => .object [("codec", .string "generated"), ("of", .string name)]
  | sequence shape element =>
    .object [("codec", .string shape.name), ("of", element.toJson)]
  | textKeyMap value =>
    .object [("codec", .string "string_map"),
      ("of", .object [("key", .null), ("value", value.toJson)])]
  | parsedKeyMap key value =>
    .object [("codec", .string "string_map"),
      ("of", .object [("key", key.toJson), ("value", value.toJson)])]
  | pairedMap key value =>
    .object [("codec", .string "object_map"),
      ("of", .object [("key", key.toJson), ("value", value.toJson)])]

/-- The sorts of codecs as a written reference names them. -/
inductive Family where
  | scalar
  /-- A codec that needs nothing else, and its title in messages. -/
  | plain (c : CodecRef) (title : String)
  | generated
  | sequence (shape : Shape)
  /-- A map with its keys as names of members. -/
  | memberMap
  /-- A map with its keys in an array. -/
  | arrayMap

/-- The form of a reference: the member `codec` says what the member `of` holds. -/
def form : Json.AdjacentForm Family where
  expected := "adjacently tagged enum CodecRef"
  tagName := "codec"
  contentName := "of"
  variants := [
    ("scalar", .scalar),
    ("str", .plain string "Str"),
    ("date", .plain date "Date"),
    ("timestamp", .plain timestamp "Timestamp"),
    ("local_date", .plain localDate "LocalDate"),
    ("any", .plain any "Any"),
    ("generated", .generated),
    ("array", .sequence .array),
    ("list", .sequence .list),
    ("set", .sequence .set),
    ("string_map", .memberMap),
    ("object_map", .arrayMap)]

/-- The names of the scalar kinds. -/
def scalarVariants : List (String × Scalar) := Scalar.all.map fun s => (s.name, s)

/-- Reads the content of a codec that needs none, which may only be null. -/
def readNothing (expected : String) (o : Json.Origin) : Json.Draft → Json.Reading Unit
  | .null => .ok ()
  | .array items stop => do
    let _ ← o.enter
    (Json.Draft.array items stop).mismatch expected
  | .object members stop => do
    let _ ← o.enter
    (Json.Draft.object members stop).mismatch expected
  | d => d.mismatch expected

/-- The name of the content of a map in messages. -/
def mapExpected (paired : Bool) : String :=
  if paired then "struct variant CodecRef::ObjectMap" else "struct variant CodecRef::StringMap"

/-- The reference to the codec of a map; without a codec for keys, they are texts. -/
def mapRef (paired : Bool) (key : Option CodecRef) (value : CodecRef) : CodecRef :=
  match key with
  | none => textKeyMap value
  | some key => if paired then pairedMap key value else parsedKeyMap key value

/-- The reference to the codec of a map whose content has been read; keys in an array must have a
codec. -/
def finishMap (paired : Bool) (key : Option (Option CodecRef)) (value : Option CodecRef) :
    Json.Reading CodecRef := do
  let key ← if paired then Json.filled key (.missingField "key") else .ok (key.getD none)
  return mapRef paired key (← Json.filled value (.missingField "value"))

end CodecRef

namespace Json

namespace AdjacentForm

variable {τ : Type} {form : AdjacentForm τ} {o : Origin} {a : Adjacent τ} {d : Draft}
  {inner : Origin}

/-- The content that is found behind the tag weighs less than the object. -/
theorem weight_locateContent {tag : τ} {members : List Draft.Member} {stop : Option Fault}
    (h : form.locateContent o tag members stop = .ok a) (hc : a.content = some (d, inner)) :
    d.weight ≤ Draft.weightMembers members := by
  induction members with
  -- Without a member for the content none is given back.
  | nil =>
    simp only [locateContent, bind, Except.bind, pure, Except.pure] at h
    split at h <;> simp_all
    subst h
    simp at hc
  | cons m rest ih =>
    obtain ⟨key, e⟩ := m
    simp only [locateContent, bind, Except.bind, pure, Except.pure] at h
    simp only [Draft.weightMembers]
    split at h <;> try contradiction
    split at h <;> try contradiction
    split at h
    -- This member is the content.
    · simp only [Except.ok.injEq] at h
      subst h
      simp only [Option.some.injEq, Prod.mk.injEq] at hc
      obtain ⟨rfl, _⟩ := hc
      omega
    -- Another member, whose key is passed over.
    · split at h <;> try contradiction
      have := ih h
      omega

/-- Looking for the tag behind the content leaves the content as it was. -/
theorem locateTag_content {members : List Draft.Member} {stop : Option Fault} {content : Draft}
    (h : form.locateTag o content members stop = .ok a) :
    a.content = some (content, .held) := by
  induction members with
  | nil =>
    simp only [locateTag, bind, Except.bind] at h
    split at h <;> simp at h
  | cons m rest ih =>
    obtain ⟨key, e⟩ := m
    simp only [locateTag, bind, Except.bind, pure, Except.pure] at h
    split at h <;> try contradiction
    split at h
    -- The tag: the content is given back as it was held.
    · split at h <;> try contradiction
      simp only [Except.ok.injEq] at h
      subst h
      rfl
    -- Another member, so the search goes on behind it.
    · split at h <;> try contradiction
      split at h <;> try contradiction
      exact ih h

/-- The content that is found in an object weighs less than the object. -/
theorem weight_locate {members : List Draft.Member} {stop : Option Fault}
    (h : form.locate o members stop = .ok a) (hc : a.content = some (d, inner)) :
    d.weight ≤ Draft.weightMembers members := by
  induction members with
  -- Neither tag nor content is there, which is an error.
  | nil =>
    simp only [locate, bind, Except.bind] at h
    split at h <;> simp at h
  | cons m rest ih =>
    obtain ⟨key, e⟩ := m
    simp only [locate, bind, Except.bind] at h
    simp only [Draft.weightMembers]
    split at h <;> try contradiction
    split at h
    -- The tag comes first, and the content is looked for behind it.
    · split at h <;> try contradiction
      have := weight_locateContent h hc
      omega
    -- The content comes first and is held until the tag has been found.
    · split at h
      · split at h <;> try contradiction
        have := locateTag_content h
        rw [this] at hc
        simp only [Option.some.injEq, Prod.mk.injEq] at hc
        obtain ⟨rfl, _⟩ := hc
        omega
      -- A member that is neither, so the rest is searched.
      · split at h <;> try contradiction
        have := ih h
        omega

/-- The content that is found in an array weighs less than the array. -/
theorem weight_locateItems {items : List Draft} {stop : Option Fault} {tag : τ}
    {rest : List Draft} (h : form.locateItems o items stop = .ok (tag, d, rest)) :
    d.weight ≤ Draft.weightItems items := by
  -- An array needs two items, the tag and the content.
  match items with
  | [] =>
    simp only [locateItems, bind, Except.bind] at h
    split at h <;> simp at h
  | [_] =>
    simp only [locateItems, bind, Except.bind] at h
    split at h <;> try contradiction
    split at h <;> simp at h
  | _ :: _ :: _ =>
    simp only [locateItems, bind, Except.bind, pure, Except.pure] at h
    split at h <;> try contradiction
    simp only [Except.ok.injEq, Prod.mk.injEq] at h
    obtain ⟨_, rfl, _⟩ := h
    simp only [Draft.weightItems]
    omega

end AdjacentForm

end Json

namespace CodecRef

open Json

mutual

/-- Reads a reference. -/
def read (o : Origin) (d : Draft) : Reading CodecRef :=
  match d with
  | .object members stop => do
    let o ← o.enter
    match _h : form.locate o members stop with
    | .error e => .error e
    | .ok ⟨.plain c _, none, _⟩ => .ok c
    | .ok ⟨_, none, _⟩ => .error (.missingField form.contentName)
    | .ok ⟨family, some (content, inner), rest⟩ => do
      let c ← readContent family inner content
      form.checkRest rest stop
      return c
  | .array items stop => do
    let o ← o.enter
    match _h : form.locateItems o items stop with
    | .error e => .error e
    | .ok (family, content, rest) => do
      let c ← readContent family o content
      endOfRecord o 2 rest stop
      return c
  | d => d.mismatch form.expected
termination_by (d.weight, 0)
decreasing_by
  · have := AdjacentForm.weight_locate _h rfl
    apply Prod.Lex.left
    simp only [Draft.weight]
    omega
  · have := AdjacentForm.weight_locateItems _h
    apply Prod.Lex.left
    simp only [Draft.weight]
    omega

/-- Reads what a codec of some sort needs. -/
def readContent (family : Family) (o : Origin) (d : Draft) : Reading CodecRef :=
  match family with
  | .scalar => (d.readVariant o scalarVariants).map .scalar
  | .plain c title => (readNothing ("unit variant CodecRef::" ++ title) o d).map fun _ => c
  | .generated => d.readString.map .generated
  | .sequence shape => (read o d).map (.sequence shape)
  | .memberMap => readMap false o d
  | .arrayMap => readMap true o d
termination_by (d.weight, 2)
decreasing_by
  all_goals apply Prod.Lex.right; decide

/-- Reads the codecs of the keys and values of a map. -/
def readMap (paired : Bool) (o : Origin) (d : Draft) : Reading CodecRef :=
  match d with
  | .object members stop => do readMapMembers paired (← o.enter) none none members stop
  | .array items stop => do
    let o ← o.enter
    match items with
    | [] => do
      Reading.ofSyntax (Draft.stopped stop)
      .error (.wrongLength 0 (mapExpected paired ++ " with 2 elements"))
    | [key] => do
      let _ ← readKey paired o key
      Reading.ofSyntax (Draft.stopped stop)
      .error (.wrongLength 1 (mapExpected paired ++ " with 2 elements"))
    | key :: value :: rest => do
      let key ← readKey paired o key
      let value ← read o value
      endOfRecord o 2 rest stop
      return mapRef paired key value
  | d => d.mismatch (mapExpected paired)
termination_by (d.weight, 1)
decreasing_by
  all_goals
    apply Prod.Lex.left
    simp only [Draft.weight, Draft.weightItems]
    omega

/-- Reads the codec of the keys of a map, which may be null unless the keys are in an array. -/
def readKey (paired : Bool) (o : Origin) (d : Draft) : Reading (Option CodecRef) :=
  match paired, d with
  | false, .null => .ok none
  | _, d => (read o d).map some
termination_by (d.weight, 1)
decreasing_by
  all_goals apply Prod.Lex.right; decide

/-- Reads the codecs of the keys and values of a map from members, of which others are passed
over. -/
def readMapMembers (paired : Bool) (o : Origin) (key : Option (Option CodecRef))
    (value : Option CodecRef) (members : List Draft.Member) (stop : Option Fault) :
    Reading CodecRef :=
  match members with
  | [] => do
    Reading.ofSyntax (Draft.stopped stop)
    finishMap paired key value
  | (name, d) :: rest => do
    let name ← Reading.ofSyntax name
    if name = "key" then
      if key.isSome then .error (.duplicateField name)
      else
        let key ← readKey paired o d
        readMapMembers paired o (some key) value rest stop
    else if name = "value" then
      if value.isSome then .error (.duplicateField name)
      else
        let value ← read o d
        readMapMembers paired o key (some value) rest stop
    else do
      Reading.ofSyntax d.skip
      readMapMembers paired o key value rest stop
termination_by (Draft.weightMembers members, 3)
decreasing_by
  all_goals
    apply Prod.Lex.left
    have := d.weight_pos
    simp only [Draft.weightMembers]
    omega

end

/-- Reads a reference from its text. -/
def ofText (text : String) : Reading CodecRef := readText text read

end CodecRef

end GraphCodec
