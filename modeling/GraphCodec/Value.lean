import GraphCodec.Binary.Basic
import GraphCodec.Calendar.Instant

/-!
# Native values

A `Value` is what codecs write and read back.  An object carries its exact type name and its
fields that are not null, in ascending order of name; `Value.getField?` and `Value.setField` are
the only access to fields, and `setField` keeps the order.
-/

namespace GraphCodec

/-- The shapes of a sequence of values. -/
inductive Shape where
  | array
  | list
  /-- Without order; decoding drops repeated elements. -/
  | set
deriving DecidableEq, Repr

/-- The name of a shape in messages. -/
def Shape.name : Shape → String
  | .array => "array"
  | .list => "list"
  | .set => "set"

/-- A native value. -/
inductive Value where
  | null
  | boolean (b : Bool)
  | byte (n : Int8)
  | short (n : Int16)
  | int (n : Int32)
  | long (n : Int64)
  | float (x : Single)
  | double (x : Double)
  | char (c : Char)
  | string (s : String)
  | date (t : Calendar.Instant)
  | timestamp (t : Calendar.Timestamp)
  | localDate (d : Calendar.Day)
  | enum (typeName variant : String)
  | sequence (shape : Shape) (items : List Value)
  /-- Entries in order of insertion. -/
  | map (entries : List (Value × Value))
  /-- The fields that are not null, in ascending order of name. -/
  | object (typeName : String) (fields : List (String × Value))

namespace Value

/-- The kinds of values. -/
inductive Kind where
  | null
  | boolean
  | byte
  | short
  | int
  | long
  | float
  | double
  | char
  | string
  | date
  | timestamp
  | localDate
  | enum
  | sequence (shape : Shape)
  | map
  | object
deriving DecidableEq, Repr

/-- The name of a kind in messages. -/
def Kind.name : Kind → String
  | .null => "null"
  | .boolean => "boolean"
  | .byte => "byte"
  | .short => "short"
  | .int => "int"
  | .long => "long"
  | .float => "float"
  | .double => "double"
  | .char => "char"
  | .string => "string"
  | .date => "date"
  | .timestamp => "timestamp"
  | .localDate => "local date"
  | .enum => "enum"
  | .sequence shape => shape.name
  | .map => "map"
  | .object => "object"

/-- The kind of a value. -/
def kind : Value → Kind
  | null => .null
  | boolean _ => .boolean
  | byte _ => .byte
  | short _ => .short
  | int _ => .int
  | long _ => .long
  | float _ => .float
  | double _ => .double
  | char _ => .char
  | string _ => .string
  | date _ => .date
  | timestamp _ => .timestamp
  | localDate _ => .localDate
  | enum _ _ => .enum
  | sequence shape _ => .sequence shape
  | map _ => .map
  | object _ _ => .object

/-- Whether the value is null. -/
def isNull : Value → Bool
  | null => true
  | _ => false

/-- The type name of an object. -/
def objectType? : Value → Option String
  | object typeName _ => some typeName
  | _ => none

/-! ### Fields -/

/-- The value of a field; nothing for a field that is null. -/
def getField? (fields : List (String × Value)) (name : String) : Option Value :=
  fields.lookup name

/-- Puts a value into a field, keeping the names in ascending order. -/
def insertField (fields : List (String × Value)) (name : String) (v : Value) :
    List (String × Value) :=
  match fields with
  | [] => [(name, v)]
  | (k, w) :: rest =>
    if name < k then (name, v) :: (k, w) :: rest
    else if name = k then (name, v) :: rest
    else (k, w) :: insertField rest name v

/-- Clears a field. -/
def eraseField (fields : List (String × Value)) (name : String) : List (String × Value) :=
  fields.filter (·.1 ≠ name)

/-- Sets a field; null clears it. -/
def setField (fields : List (String × Value)) (name : String) (v : Value) :
    List (String × Value) :=
  if v.isNull then eraseField fields name else insertField fields name v

/-! ### Equality -/

mutual

/-- Equality of values.  Floating-point numbers compare as numbers, so the two zeros are equal and
a value that is not a number differs from itself; kinds never mix. -/
def same : Value → Value → Bool
  | null, null => true
  | boolean a, boolean b => a == b
  | byte a, byte b => a == b
  | short a, short b => a == b
  | int a, int b => a == b
  | long a, long b => a == b
  | float a, float b => a.same b
  | double a, double b => a.same b
  | char a, char b => a == b
  | string a, string b => a == b
  | date a, date b => a == b
  | timestamp a, timestamp b => a == b
  | localDate a, localDate b => a == b
  | enum t a, enum u b => t == u && a == b
  | sequence s as, sequence t bs => s == t && sameItems as bs
  | map as, map bs => sameEntries as bs
  | object t as, object u bs => t == u && sameFields as bs
  | _, _ => false

/-- Equality of sequences, element by element. -/
def sameItems : List Value → List Value → Bool
  | [], [] => true
  | a :: as, b :: bs => a.same b && sameItems as bs
  | _, _ => false

/-- Equality of maps, entry by entry in order. -/
def sameEntries : List (Value × Value) → List (Value × Value) → Bool
  | [], [] => true
  | (k, a) :: as, (l, b) :: bs => k.same l && a.same b && sameEntries as bs
  | _, _ => false

/-- Equality of the fields of two objects. -/
def sameFields : List (String × Value) → List (String × Value) → Bool
  | [], [] => true
  | (k, a) :: as, (l, b) :: bs => k == l && a.same b && sameFields as bs
  | _, _ => false

end

/-- Whether an equal element is in the list. -/
def containsSame (items : List Value) (v : Value) : Bool := items.any (·.same v)

/-- Equality up to the order and number of the elements of sets; other values compare as they
are. -/
def sameElements : Value → Value → Bool
  | sequence .set as, sequence .set bs =>
    as.all (containsSame bs) && bs.all (containsSame as)
  | a, b => a.same b

/-- The elements without those that equal an earlier one. -/
def distinct (items : List Value) : List Value :=
  (items.foldl (fun kept v => if containsSame kept v then kept else v :: kept) []).reverse

end Value

end GraphCodec
