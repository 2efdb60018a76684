import GraphCodec.Json.Scanner
import GraphCodec.Json.Printer
import GraphCodec.Json.ReadError
import GraphCodec.Text.Quoted

/-!
# Typed readers

Readers turn a draft into a value of a certain form.  They go through the draft in document order,
so the first problem in the text is the one that is reported, be it in the grammar or in the form;
what is missing from an object shows only at its end.

A draft is read as it stands in the text, or it is `held`: it has been settled before, because the
reader did not yet know its form.  A held draft has no faults and no bound on its nesting, and a few
problems of form have other messages there.

* `RecordForm` reads records: objects with certain members, or arrays of their values in order.
* `readVariant` reads one of a number of names.
* `readTagged` reads an object one of whose members says which form the others have.
* `readAdjacent` reads an object with one member that says which form another one has.
-/

namespace GraphCodec.Json

/-- Where a draft stands. -/
inductive Origin where
  /-- In the text, with so much room for nesting. -/
  | text (room : Room)
  /-- It has been settled. -/
  | held

/-- What a reader yields. -/
abbrev Reading := Except ReadError

/-- An error in the text. -/
def Reading.ofSyntax {α : Type} (r : Except SyntaxError α) : Reading α :=
  r.mapError .malformed

namespace Origin

/-- Opens an array or an object. -/
def enter : Origin → Reading Origin
  | text room => (Reading.ofSyntax room.enter).map text
  | held => .ok held

/-- Settles a draft whose form is not known yet. -/
def settle (o : Origin) (d : Draft) : Reading Unit :=
  match o with
  | text room => (Reading.ofSyntax (d.settle room)).map fun _ => ()
  | held => .ok ()

end Origin

namespace Draft

/-- What a draft is, in messages. -/
def describe : Draft → Reading String
  | null => .ok "null"
  | bool b => .ok ("boolean `" ++ (if b then "true" else "false") ++ "`")
  | number (.integer i) => .ok ("integer `" ++ Decimal.intText i ++ "`")
  | number n => .ok ("floating point `" ++ n.text ++ "`")
  | string s => .ok ("string " ++ Text.quote s)
  | unreadable e => .error (.malformed e)
  | array _ _ => .ok "sequence"
  | object _ _ => .ok "map"
  | fault f => .error (.malformed f.read)

/-- The error of a reader that expects something else. -/
def mismatch {α : Type} (d : Draft) (expected : String) : Reading α := do
  let found ← d.describe
  .error (.wrongType found expected)

/-- Reads a string. -/
def readString : Draft → Reading String
  | string s => .ok s
  | d => d.mismatch "a string"

/-- Reads a truth value. -/
def readBool : Draft → Reading Bool
  | bool b => .ok b
  | d => d.mismatch "a boolean"

/-- Reads a value that may be null. -/
def readOption {α : Type} (reader : Draft → Reading α) : Draft → Reading (Option α)
  | null => .ok none
  | d => (reader d).map some

/-- Reads a value that must be null. -/
def readUnit (o : Origin) : Draft → Reading Unit
  | null => .ok ()
  | object [] none => match o with
    | .held => .ok ()
    | .text _ => (object [] none).mismatch "unit"
  | d => d.mismatch "unit"

/-- Reads the elements of an array. -/
def readItems {α : Type} (reader : Draft → Reading α) : List Draft → Reading (List α)
  | [] => .ok []
  | d :: rest => do
    let a ← reader d
    let as ← readItems reader rest
    return a :: as

/-- Reads an array. -/
def readList {α : Type} (o : Origin) (reader : Origin → Draft → Reading α) :
    Draft → Reading (List α)
  | array items stop => do
    let inner ← o.enter
    let values ← readItems (reader inner) items
    Reading.ofSyntax (stopped stop)
    return values
  | d => d.mismatch "a sequence"

/-- Reads an array of strings. -/
def readStrings (o : Origin) (d : Draft) : Reading (List String) :=
  d.readList o fun _ => readString

/-- Looks a name up among the names of variants. -/
def variant {α : Type} (variants : List (String × α)) (name : String) : Reading α :=
  match variants.lookup name with
  | some a => .ok a
  | none => .error (.unknownVariant name (variants.map (·.1)))

/-- Reads the name of a variant, which must be a string. -/
def readIdentifier {α : Type} (variants : List (String × α)) : Draft → Reading α
  | string s => variant variants s
  | d => d.mismatch "variant identifier"

/-- Reads a variant: its name, or an object with the name as its one member, whose value is null. -/
def readVariant {α : Type} (o : Origin) (variants : List (String × α)) (d : Draft) : Reading α :=
  match d, o with
  | string s, _ => variant variants s
  | object [(key, value)] none, .held => do
    let a ← variant variants (← Reading.ofSyntax key)
    value.readUnit o
    return a
  | object _ _, .held => .error (.wrongValue "map" "map with a single key")
  | d, .held => d.mismatch "string or map"
  | object [] stop, .text room => do
    let _ ← Reading.ofSyntax room.enter
    Reading.ofSyntax (stopped stop)
    .error (.malformed .expectedValue)
  | object ((key, value) :: rest) stop, .text room => do
    let _ ← Reading.ofSyntax room.enter
    let a ← variant variants (← Reading.ofSyntax key)
    value.readUnit o
    match rest, stop with
    | [], none => return a
    | [], some f =>
      .error (.malformed (if f.read = .endInObject then .endInObject else .expectedValue))
    | _ :: _, _ => .error (.malformed .expectedValue)
  | fault f, .text _ => .error (.malformed f.named)
  | unreadable e, .text _ =>
    .error (.malformed (if e = .numberOutOfRange then .expectedValue else e))
  | null, .text _ | bool _, .text _ | number _, .text _ | array _ _, .text _ =>
    .error (.malformed .expectedValue)

end Draft

/-! ### Records -/

/-- The form of a record of type `α`, which is gathered in a state of type `σ`. -/
structure RecordForm (σ α : Type) where
  /-- The name of the form in messages. -/
  expected : String
  /-- The names of the members, in the order in which an array holds their values. -/
  fields : List String
  /-- Whether other members are refused. -/
  strict : Bool
  empty : σ
  /-- Reads one of the members. -/
  member : Origin → σ → String → Draft → Reading σ
  /-- The record, or the error for a member that is missing. -/
  finish : σ → (String → ReadError) → Reading α

/-- Fills a slot that must still be empty. -/
def fill {α : Type} (slot : Option α) (name : String) (read : Reading α) : Reading (Option α) :=
  if slot.isSome then .error (.duplicateField name) else read.map some

/-- The value in a slot that must be filled. -/
def filled {α : Type} (slot : Option α) (missing : ReadError) : Reading α :=
  match slot with
  | some a => .ok a
  | none => .error missing

/-- The error at the end of an array with more elements than the record has fields, or whose end is
missing. -/
def endOfRecord (o : Origin) (fields : Nat) (rest : List Draft) (stop : Option Fault) :
    Reading Unit :=
  match rest, o with
  | _ :: _, .text _ => .error (.malformed .trailingCharacters)
  | _ :: _, .held =>
    .error (.wrongLength (fields + rest.length) (elements fields ++ " in sequence"))
  | [], _ =>
    match stop with
    | none => .ok ()
    | some f =>
      .error (.malformed (if f.read = .expectedListEnd then .trailingCharacters else f.read))
where
  /-- A number of elements. -/
  elements (n : Nat) : String :=
    Decimal.natText n ++ if n = 1 then " element" else " elements"

namespace RecordForm

variable {σ α : Type}

/-- Reads the members of an object. -/
def readMembers (form : RecordForm σ α) (o : Origin) (s : σ) :
    List Draft.Member → Option Fault → Reading σ
  | [], stop => do
    Reading.ofSyntax (Draft.stopped stop)
    return s
  | (key, d) :: rest, stop => do
    let name ← Reading.ofSyntax key
    if form.fields.contains name then
      form.readMembers o (← form.member o s name d) rest stop
    else if form.strict then
      .error (.unknownField name form.fields)
    else
      Reading.ofSyntax d.skip
      form.readMembers o s rest stop

/-- Reads the elements of an array as the values of the fields in order; the result holds the
elements that are left. -/
def readItems (form : RecordForm σ α) (o : Origin) (s : σ) :
    List String → List Draft → Option Fault → Reading (σ × List Draft)
  | name :: names, d :: items, stop => do
    form.readItems o (← form.member o s name d) names items stop
  | _ :: _, [], some f => .error (.malformed f.read)
  | _, items, _ => .ok (s, items)

/-- Reads the members of an object as a record. -/
def ofMembers (form : RecordForm σ α) (o : Origin) (members : List Draft.Member)
    (stop : Option Fault) : Reading α := do
  form.finish (← form.readMembers o form.empty members stop) .missingField

/-- Reads the elements of an array as a record. -/
def ofItems (form : RecordForm σ α) (o : Origin) (items : List Draft) (stop : Option Fault) :
    Reading α := do
  let (s, rest) ← form.readItems o form.empty form.fields items stop
  let count := form.fields.length
  let a ← form.finish s fun name =>
    .wrongLength (form.fields.idxOf name)
      (form.expected ++ " with " ++ endOfRecord.elements count)
  endOfRecord o count rest stop
  return a

/-- Reads a record. -/
def read (form : RecordForm σ α) (o : Origin) : Draft → Reading α
  | .object members stop => do form.ofMembers (← o.enter) members stop
  | .array items stop => do form.ofItems (← o.enter) items stop
  | d => d.mismatch form.expected

end RecordForm

/-! ### Tagged objects -/

/-- An object or an array without the tag that was in it. -/
inductive Untagged where
  | object (members : List Draft.Member)
  | array (items : List Draft)

/-- Reads the rest of a tagged object or array as a record. -/
def RecordForm.readUntagged {σ α : Type} (form : RecordForm σ α) : Untagged → Reading α
  | .object members => form.ofMembers .held members none
  | .array items => form.ofItems .held items none

/-- Settles the members of an object and finds the tag among them. -/
def takeTag {τ : Type} (o : Origin) (tagName : String) (variants : List (String × τ))
    (tag : Option τ) :
    List Draft.Member → Option Fault →
      Reading (Option τ × List Draft.Member)
  | [], stop => do
    Reading.ofSyntax (Draft.stopped stop)
    return (tag, [])
  | (key, d) :: rest, stop => do
    let name ← Reading.ofSyntax key
    if name = tagName then
      let tag ← fill tag tagName (d.readIdentifier variants)
      takeTag o tagName variants tag rest stop
    else
      o.settle d
      let (tag, others) ← takeTag o tagName variants tag rest stop
      return (tag, (key, d) :: others)

/-- Reads the tag of an object, or of an array whose first element it is, and settles the rest. -/
def readTagged {τ : Type} (o : Origin) (expected tagName : String)
    (variants : List (String × τ)) : Draft → Reading (τ × Untagged)
  | .object members stop => do
    let (tag, others) ← takeTag (← o.enter) tagName variants none members stop
    return (← filled tag (.missingField tagName), .object others)
  | .array [] stop => do
    let _ ← o.enter
    Reading.ofSyntax (Draft.stopped stop)
    .error (.missingField tagName)
  | .array (d :: items) stop => do
    let inner ← o.enter
    let tag ← d.readIdentifier variants
    let _ ← Draft.readItems inner.settle items
    Reading.ofSyntax (Draft.stopped stop)
    return (tag, .array items)
  | d => d.mismatch expected

/-! ### Objects with a tag and a content -/

/-- The names of an object with a tag and a content. -/
structure AdjacentForm (τ : Type) where
  /-- The name of the form in messages. -/
  expected : String
  tagName : String
  contentName : String
  variants : List (String × τ)

/-- What an object with a tag and a content holds: the content with its origin, if there is one,
and the members after it. -/
structure Adjacent (τ : Type) where
  tag : τ
  content : Option (Draft × Origin)
  rest : List Draft.Member

namespace AdjacentForm

variable {τ : Type}

/-- Finds the content, given the tag. -/
def locateContent (form : AdjacentForm τ) (o : Origin) (tag : τ) :
    List Draft.Member → Option Fault → Reading (Adjacent τ)
  | [], stop => do
    Reading.ofSyntax (Draft.stopped stop)
    return ⟨tag, none, []⟩
  | (key, d) :: rest, stop => do
    let name ← Reading.ofSyntax key
    if name = form.tagName then .error (.duplicateField name)
    else if name = form.contentName then return ⟨tag, some (d, o), rest⟩
    else
      Reading.ofSyntax d.skip
      form.locateContent o tag rest stop

/-- Finds the tag, given the content, which has been settled. -/
def locateTag (form : AdjacentForm τ) (o : Origin) (content : Draft) :
    List Draft.Member → Option Fault → Reading (Adjacent τ)
  | [], stop => do
    Reading.ofSyntax (Draft.stopped stop)
    .error (.missingField form.tagName)
  | (key, d) :: rest, stop => do
    let name ← Reading.ofSyntax key
    if name = form.tagName then
      return ⟨← d.readVariant o form.variants, some (content, .held), rest⟩
    else if name = form.contentName then .error (.duplicateField name)
    else
      Reading.ofSyntax d.skip
      form.locateTag o content rest stop

/-- Finds the tag and the content of an object; the content is settled if it comes first. -/
def locate (form : AdjacentForm τ) (o : Origin) :
    List Draft.Member → Option Fault → Reading (Adjacent τ)
  | [], stop => do
    Reading.ofSyntax (Draft.stopped stop)
    .error (.missingField form.tagName)
  | (key, d) :: rest, stop => do
    let name ← Reading.ofSyntax key
    if name = form.tagName then
      form.locateContent o (← d.readVariant o form.variants) rest stop
    else if name = form.contentName then
      o.settle d
      form.locateTag o d rest stop
    else
      Reading.ofSyntax d.skip
      form.locate o rest stop

/-- Goes through the members after the tag and the content, neither of which may come again. -/
def checkRest (form : AdjacentForm τ) : List Draft.Member → Option Fault → Reading Unit
  | [], stop => Reading.ofSyntax (Draft.stopped stop)
  | (key, d) :: rest, stop => do
    let name ← Reading.ofSyntax key
    if name = form.tagName ∨ name = form.contentName then .error (.duplicateField name)
    else
      Reading.ofSyntax d.skip
      form.checkRest rest stop

/-- Reads the tag that is the first element of an array. -/
def readTagItem (form : AdjacentForm τ) (o : Origin) (d : Draft) : Reading τ :=
  match o, d with
  | .held, .number (.integer i) =>
    match if 0 ≤ i then form.variants[i.toNat]? else none with
    | some (_, tag) => .ok tag
    | none =>
      if 0 ≤ i then
        .error (.wrongValue ("integer `" ++ Decimal.intText i ++ "`")
          ("variant index 0 <= i < " ++ Decimal.natText form.variants.length))
      else d.mismatch "variant identifier"
  | _, d => d.readIdentifier form.variants

/-- Finds the tag and the content in an array, of which they are the first two elements. -/
def locateItems (form : AdjacentForm τ) (o : Origin) :
    List Draft → Option Fault → Reading (τ × Draft × List Draft)
  | [], stop => do
    Reading.ofSyntax (Draft.stopped stop)
    .error (.wrongLength 0 form.expected)
  | [d], stop => do
    let _ ← form.readTagItem o d
    Reading.ofSyntax (Draft.stopped stop)
    .error (.wrongLength 1 form.expected)
  | d :: content :: rest, _ => do
    return (← form.readTagItem o d, content, rest)

end AdjacentForm

/-- Reads a text through a reader for its value. -/
def readText {α : Type} (text : String) (reader : Origin → Draft → Reading α) : Reading α :=
  (Document.scan text).read (reader (.text Room.bounded)) .malformed

end GraphCodec.Json
