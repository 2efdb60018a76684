import GraphCodec.Codec.Plan
import GraphCodec.Codec.Error
import GraphCodec.Binary.Reading
import GraphCodec.Json.Printer
import GraphCodec.Calendar.LocalDate

/-!
# Codecs without parts

The codecs of scalars, strings, enums and dates.  Reading is lenient about the form of a value (a
number may come as a numeric string) but exact about the value: what is out of range or not whole
is refused.  `null` reads as null everywhere.
-/

namespace GraphCodec

namespace Json

/-- The integer that a number is written as, if it is in the range of 64 bits. -/
def Number.int64? : Number → Option Int
  | .integer i => if -2 ^ (63 : Nat) ≤ i ∧ i < 2 ^ (63 : Nat) then some i else none
  | _ => none

/-- The integer in the range of 64 bits that a number is.  A double counts if it is whole and small
enough that every integer up to it is a double. -/
def Number.integral? : Number → Option Int
  | .integer i => (Number.integer i).int64?
  | .double x => do
    let i ← x.toInt?
    if i.natAbs ≤ 2 ^ (53 : Nat) then some i else none
  | .single _ => none

/-- The double that a number is. -/
def Number.toDouble : Number → Double
  | .integer i => Binary.ofInt binary64 i
  | .double x => .finite x
  | .single x => Binary.convert binary64 (.finite x)

end Json

/-- The least and the greatest integer of an integer kind. -/
def Scalar.integerRange? : Scalar → Option (Int × Int)
  | .byte => some (-2 ^ (7 : Nat), 2 ^ (7 : Nat) - 1)
  | .short => some (-2 ^ (15 : Nat), 2 ^ (15 : Nat) - 1)
  | .int => some (-2 ^ (31 : Nat), 2 ^ (31 : Nat) - 1)
  | .long => some (-2 ^ (63 : Nat), 2 ^ (63 : Nat) - 1)
  | _ => none

/-- The value of a type that does not match what a codec looks for. -/
def CodecError.mismatch {α : Type} (wanted : Wanted) (v : Value) : Except CodecError α :=
  .error (.unexpectedValue wanted v.kind)

/-- A JSON value that does not match what a codec looks for. -/
def CodecError.unexpected {α : Type} (wanted : Wanted) (j : Json) : Except CodecError α :=
  .error (.unexpectedJson wanted j.kind)

namespace Scalar

/-- Writes a floating-point number, which must be finite. -/
def encodeFinite {f : BinaryFormat} (s : Scalar) (number : Finite f → Json.Number)
    (x : Binary f) : Except CodecError Json :=
  match x.finite? with
  | some x => .ok (.number (number x))
  | none => .error (.nonFiniteNumber s)

/-- Writes a scalar.  A `long` does not fit into every reader's numbers and is written as a
string. -/
def encode (s : Scalar) (v : Value) : Except CodecError Json :=
  match s, v with
  | boolean, .boolean b => .ok (.bool b)
  | byte, .byte n => .ok (.number (.integer n.toInt))
  | short, .short n => .ok (.number (.integer n.toInt))
  | int, .int n => .ok (.number (.integer n.toInt))
  | long, .long n => .ok (.string (Decimal.intText n.toInt))
  | float, .float x => encodeFinite float .single x
  | double, .double x => encodeFinite double .double x
  | char, .char c => .ok (.string (String.singleton c))
  | s, v => CodecError.mismatch (.scalar s) v

/-- The integer of a number, if the kind has it. -/
def inRange? (s : Scalar) (i : Int) : Option Int := do
  let (least, greatest) ← s.integerRange?
  if least ≤ i ∧ i ≤ greatest then some i else none

/-- Reads an integer of a kind from a number or a numeric string. -/
def decodeInt (s : Scalar) (j : Json) : Except CodecError Int :=
  match j with
  | .number n =>
    match n.integral? >>= s.inRange? with
    | some i => .ok i
    | none => .error (.malformedNumber s n.text)
  | .string text =>
    match Numeral.readInt? (Text.trim text) >>= s.inRange? with
    | some i => .ok i
    | none => .error (.malformedNumber s text)
  | j => CodecError.unexpected (.scalar s) j

/-- Reads a floating-point number from a number or a numeric string.  A number goes through a
double; a string is rounded once. -/
def decodeBinary (s : Scalar) (f : BinaryFormat) (j : Json) : Except CodecError (Binary f) :=
  match j with
  | .number n => .ok (n.toDouble.convert f)
  | .string text =>
    match Binary.ofText? f (Text.trim text) with
    | some x => .ok x
    | none => .error (.malformedNumber s text)
  | j => CodecError.unexpected (.scalar s) j

/-- Reads a boolean, or its name in a string. -/
def decodeBoolean (j : Json) : Except CodecError Bool :=
  match j with
  | .bool b => .ok b
  | .string text =>
    match Text.trim text with
    | "true" => .ok true
    | "false" => .ok false
    | _ => .error (.malformedNumber boolean text)
  | j => CodecError.unexpected (.scalar boolean) j

/-- Reads a character: the first one of a string or of the text of a number. -/
def decodeChar (j : Json) : Except CodecError Char :=
  match j with
  | .string text => .ok (firstChar text)
  | .number n => .ok (firstChar n.text)
  | j => CodecError.unexpected (.scalar char) j

/-- Reads a scalar. -/
def decode (s : Scalar) (j : Json) : Except CodecError Value :=
  if j.isNull then .ok .null
  else match s with
    | boolean => (decodeBoolean j).map .boolean
    | byte => (decodeInt byte j).map fun i => .byte (.ofInt i)
    | short => (decodeInt short j).map fun i => .short (.ofInt i)
    | int => (decodeInt int j).map fun i => .int (.ofInt i)
    | long => (decodeInt long j).map fun i => .long (.ofInt i)
    | float => (decodeBinary float binary32 j).map .float
    | double => (decodeBinary double binary64 j).map .double
    | char => (decodeChar j).map .char

end Scalar

namespace Codec

/-- Writes a string. -/
def encodeString : Value → Except CodecError Json
  | .string s => .ok (.string s)
  | v => CodecError.mismatch .string v

/-- Reads a string. -/
def decodeString : Json → Except CodecError Value
  | .null => .ok .null
  | .string s => .ok (.string s)
  | j => CodecError.unexpected .string j

/-- Writes an instant as text. -/
def encodeDate : Value → Except CodecError Json
  | .date t => .ok (.string t.text)
  | v => CodecError.mismatch .date v

/-- Reads an instant from its text, or from an integer of milliseconds since 1970. -/
def decodeDate : Json → Except CodecError Value
  | .null => .ok .null
  | .number n =>
    match n.int64? >>= Calendar.Instant.ofMillis? with
    | some t => .ok (.date t)
    | none => .error (.malformedDate n.text .notMillis)
  | .string text =>
    match Calendar.Instant.parse text with
    | .ok t => .ok (.date t)
    | .error e => .error (.malformedDate text (.date e))
  | j => CodecError.unexpected .date j

/-- Writes a timestamp as text. -/
def encodeTimestamp : Value → Except CodecError Json
  | .timestamp t => .ok (.string t.text)
  | v => CodecError.mismatch .timestamp v

/-- Reads a timestamp.  An error is about the part of the text at fault. -/
def decodeTimestamp : Json → Except CodecError Value
  | .null => .ok .null
  | .string text =>
    match Calendar.Timestamp.parse text with
    | .ok t => .ok (.timestamp t)
    | .error e => .error (.malformedDate e.culprit (.timestamp e))
  | j => CodecError.unexpected .timestamp j

/-- Writes a local date as text. -/
def encodeLocalDate : Value → Except CodecError Json
  | .localDate d => .ok (.string d.text)
  | v => CodecError.mismatch .localDate v

/-- Reads a local date. -/
def decodeLocalDate : Json → Except CodecError Value
  | .null => .ok .null
  | .string text =>
    match Calendar.LocalDate.parse text with
    | .ok d => .ok (.localDate d)
    | .error e => .error (.malformedDate text (.date e))
  | j => CodecError.unexpected .localDate j

end Codec

namespace EnumPlan

/-- Writes a variant of an enum by its name. -/
def encode (p : EnumPlan) : Value → Except CodecError Json
  | .enum _ variant =>
    if p.variants.contains variant then .ok (.string variant)
    else .error (.unknownVariant p.typeName variant)
  | v => CodecError.mismatch .enum v

/-- Reads a variant of an enum by its name. -/
def decode (p : EnumPlan) : Json → Except CodecError Value
  | .null => .ok .null
  | .string name =>
    if p.variants.contains name then .ok (.enum p.typeName name)
    else .error (.unknownVariant p.typeName name)
  | j => CodecError.unexpected .variantName j

end EnumPlan

end GraphCodec
