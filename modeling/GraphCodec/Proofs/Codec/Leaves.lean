import GraphCodec.Codec.Decode
import GraphCodec.Proofs.Codec.Encoding

/-!
# Scalars are read back

What the codec of a scalar kind writes is read back as the same value, after the text of it has been
parsed: booleans, characters and integers (`Scalar.exists_encode`), and the zero of every kind
(`Scalar.exists_encode_zero`).  The same is true of the name of a member that stands for a key
(`Scalar.exists_encode_key`), though a name is parsed on its own before it is decoded: the text of
an integer is one, and a single character is parsed as a number only if it is a digit.
-/

namespace GraphCodec

open Json

/-! ### Numbers -/

/-- An integer of 64 bits reads back from its text as itself. -/
private theorem reread_number_integer {i : Int} (hlow : -2 ^ 63 ≤ i) (hhigh : i < 2 ^ 63) :
    (Json.number (.integer i)).reread = .number (.integer i) := by
  rw [reread, Number.reread, Number.reread?_integer hlow (by omega)]
  rfl

/-- The text of an integer parses as the integer. -/
private theorem parse_intText {i : Int} (hlow : -2 ^ 63 ≤ i) (hhigh : i < 2 ^ 63) :
    parse (Decimal.intText i) = .ok (.number (.integer i)) := by
  -- The text is that of a JSON number, which is readable and read back.
  have hreadable : (Json.number (.integer i)).Readable := by
    rw [Readable, Number.reread?_integer hlow (by omega)]
    rfl
  have hrender : (Json.number (.integer i)).render = Decimal.intText i := by
    rw [render, write, List.append_nil, String.ofList_toList]
    rfl
  rw [← hrender, parse_render hreadable, reread_number_integer hlow hhigh]

namespace Scalar

/-- An integer that a kind has is read from a number. -/
theorem decodeInt_integer {s : Scalar} {i : Int} (hlow : -2 ^ 63 ≤ i) (hhigh : i < 2 ^ 63)
    (h : s.inRange? i = some i) : s.decodeInt (.number (.integer i)) = .ok i := by
  have hintegral : (Number.integer i).integral? = some i := if_pos ⟨hlow, hhigh⟩
  rw [decodeInt]
  simp only [hintegral, Option.bind_eq_bind, Option.bind_some, h]

/-- An integer that a kind has is read from its text. -/
private theorem decodeInt_intText {s : Scalar} {i : Int} (h : s.inRange? i = some i) :
    s.decodeInt (.string (Decimal.intText i)) = .ok i := by
  rw [decodeInt]
  simp only [Decimal.trim_intText, Decimal.readInt?_intText, Option.bind_eq_bind,
    Option.bind_some, h]

/-- A number in the range of a scalar is taken. -/
private theorem inRange?_eq {s : Scalar} {i least greatest : Int}
    (hs : s.integerRange? = some (least, greatest)) (h : least ≤ i ∧ i ≤ greatest) :
    s.inRange? i = some i := by
  rw [inRange?, hs]
  exact if_pos h

/-! ### Values that are written exactly -/

/-- Whether a value is one of a kind whose values are all read back: a boolean, a character or an
integer.  Floating-point numbers are not among them. -/
def Admits : Scalar → Value → Prop
  | boolean, .boolean _ => True
  | byte, .byte _ => True
  | char, .char _ => True
  | short, .short _ => True
  | int, .int _ => True
  | long, .long _ => True
  | _, _ => False

/-- What is written for a value that a kind admits. -/
def jsonOf : Value → Json
  | .boolean b => .bool b
  | .byte n => .number (.integer n.toInt)
  | .short n => .number (.integer n.toInt)
  | .int n => .number (.integer n.toInt)
  | .long n => .string (Decimal.intText n.toInt)
  | .char c => .string (String.singleton c)
  | _ => .null

/-- A value of a scalar that is exact is written. -/
theorem encode_eq_jsonOf {s : Scalar} {v : Value} (h : s.Admits v) :
    s.encode v = .ok (jsonOf v) := by
  unfold Admits at h
  split at h <;> first | exact h.elim | rfl

/-- A byte is read as an integer in its range. -/
private theorem decode_byte {j : Json} (h : j.isNull = false) :
    byte.decode j = (byte.decodeInt j).map fun i => .byte (.ofInt i) := by
  rw [decode, h]
  rfl

/-- A short is read as an integer in its range. -/
private theorem decode_short {j : Json} (h : j.isNull = false) :
    short.decode j = (short.decodeInt j).map fun i => .short (.ofInt i) := by
  rw [decode, h]
  rfl

/-- An int is read as an integer in its range. -/
private theorem decode_int {j : Json} (h : j.isNull = false) :
    int.decode j = (int.decodeInt j).map fun i => .int (.ofInt i) := by
  rw [decode, h]
  rfl

/-- A long is read as an integer in its range. -/
private theorem decode_long {j : Json} (h : j.isNull = false) :
    long.decode j = (long.decodeInt j).map fun i => .long (.ofInt i) := by
  rw [decode, h]
  rfl

/-- A char is read as the only character of a string. -/
private theorem decode_char {j : Json} (h : j.isNull = false) :
    char.decode j = (decodeChar j).map .char := by
  rw [decode, h]
  rfl

/-- A value is read back from what was written for it. -/
theorem decode_jsonOf {s : Scalar} {v : Value} (h : s.Admits v) :
    s.decode (jsonOf v).reread = .ok v := by
  unfold Admits at h
  split at h
  -- A boolean is read as it is.
  case h_1 b => rfl
  -- An integer is in the range of its kind, and comes back from the number of its bits.
  case h_2 n =>
    have := n.le_toInt
    have := n.toInt_lt
    have hrange : byte.inRange? n.toInt = some n.toInt := inRange?_eq rfl (by omega)
    rw [jsonOf, reread_number_integer (by omega) (by omega), decode_byte rfl,
      decodeInt_integer (by omega) (by omega) hrange, Except.map, Int8.ofInt_toInt]
  -- A char is the only character of the string.
  case h_3 c =>
    rw [jsonOf, reread, decode_char rfl, decodeChar, firstChar, String.toList_singleton]
    rfl
  case h_4 n =>
    have := n.le_toInt
    have := n.toInt_lt
    have hrange : short.inRange? n.toInt = some n.toInt := inRange?_eq rfl (by omega)
    rw [jsonOf, reread_number_integer (by omega) (by omega), decode_short rfl,
      decodeInt_integer (by omega) (by omega) hrange, Except.map, Int16.ofInt_toInt]
  case h_5 n =>
    have := n.le_toInt
    have := n.toInt_lt
    have hrange : int.inRange? n.toInt = some n.toInt := inRange?_eq rfl (by omega)
    rw [jsonOf, reread_number_integer (by omega) (by omega), decode_int rfl,
      decodeInt_integer (by omega) (by omega) hrange, Except.map, Int32.ofInt_toInt]
  -- A long is written as a text, so its digits are parsed once more.
  case h_6 n =>
    have := n.le_toInt
    have := n.toInt_lt
    have hrange : long.inRange? n.toInt = some n.toInt := inRange?_eq rfl (by omega)
    rw [jsonOf, reread, decode_long rfl, decodeInt_intText hrange, Except.map, Int64.ofInt_toInt]
  case h_7 => exact h.elim

/-- A value that a kind admits is written, and read back. -/
theorem exists_encode {s : Scalar} {v : Value} (h : s.Admits v) :
    ∃ j, s.encode v = .ok j ∧ s.decode j.reread = .ok v :=
  ⟨jsonOf v, encode_eq_jsonOf h, decode_jsonOf h⟩

/-- The zero of double precision, as a number. -/
private def zeroNumber : Number := .double ⟨false, ⟨0, by decide⟩⟩

/-- Zero reads back from its text as zero, whichever precision it was written in. -/
private theorem reread_zero :
    zeroNumber.reread = zeroNumber ∧
      (Number.single ⟨false, ⟨0, by decide⟩⟩).reread = zeroNumber := by
  decide +kernel

/-- Zero is zero in both formats. -/
private theorem convert_zero :
    zeroNumber.toDouble.convert binary64 = Binary.zero binary64 ∧
      zeroNumber.toDouble.convert binary32 = Binary.zero binary32 := by
  simp [zeroNumber, Number.toDouble, Binary.convert, Binary.ofRatio, Binary.zero, Finite.units]

/-- The zero of a kind is written, and read back. -/
theorem exists_encode_zero (s : Scalar) :
    ∃ j, s.encode s.zero = .ok j ∧ s.decode j.reread = .ok s.zero := by
  -- The numbers that need not be finite have a zero as well.
  cases s with
  | float =>
    refine ⟨.number (.single ⟨false, ⟨0, by decide⟩⟩), rfl, ?_⟩
    rw [reread, reread_zero.2]
    show Except.ok (Value.float (zeroNumber.toDouble.convert binary32)) = _
    rw [convert_zero.2]
    rfl
  | double =>
    refine ⟨.number zeroNumber, rfl, ?_⟩
    rw [reread, reread_zero.1]
    show Except.ok (Value.double (zeroNumber.toDouble.convert binary64)) = _
    rw [convert_zero.1]
    rfl
  | _ => exact exists_encode trivial

end Scalar

/-! ### Keys -/

/-- A single character that is no digit is no JSON document. -/
private theorem parse_singleton_eq_error {c : Char} (h : Decimal.digitValue? c = none) :
    ∃ e, parse (String.singleton c) = .error e := by
  -- The scan of a single character ends in a value that cannot be settled.
  have hscan : ∃ e, (Scanner.start.run [c]).value.settle none = .error e := by
    rw [Scanner.run]
    split
    -- The character was taken up: as a blank, or as the beginning of something.
    case h_1 s hstep =>
      change (if Scanner.isBlank c then Except.ok Scanner.start
        else Scanner.valueStep [] c) = .ok s at hstep
      split at hstep
      case isTrue =>
        cases hstep
        exact ⟨_, rfl⟩
      case isFalse hblank =>
        unfold Scanner.valueStep at hstep
        split at hstep
        case h_8 hframes => cases hframes
        case h_9 => cases hstep
        -- A digit would begin a number, but there is none.
        case h_10 =>
          rw [h] at hstep
          cases hstep
        -- The character opens a value that does not end.
        all_goals
          cases hstep
          exact ⟨_, rfl⟩
    -- The character was refused at once.
    case h_2 d hstep =>
      change (if Scanner.isBlank c then Except.ok Scanner.start
        else Scanner.valueStep [] c) = .error d at hstep
      split at hstep
      case isTrue => cases hstep
      case isFalse hblank =>
        unfold Scanner.valueStep at hstep
        split at hstep
        case h_9 hframes => cases hframes
        case h_10 =>
          rw [h] at hstep
          cases hstep
          exact ⟨_, rfl⟩
        all_goals cases hstep
  obtain ⟨e, he⟩ := hscan
  rw [parse, Document.scan, String.toList_singleton, Document.read, he]
  exact ⟨e, rfl⟩

/-- A digit is parsed as a number whose text it is. -/
private theorem decode_digit {c : Char} (h : Decimal.IsDigit c) :
    Scalar.char.decode (CodecTable.keyJson (String.singleton c)) = .ok (.char c) := by
  rcases h.eq_or with rfl | rfl | rfl | rfl | rfl | rfl | rfl | rfl | rfl | rfl <;> rfl

/-- A tree that is no string is read back from the name of the member for it. -/
private theorem keyJson_render {j : Json} (hj : j.Readable)
    (hname : CodecTable.memberName j = j.render) :
    CodecTable.keyJson (CodecTable.memberName j) = j.reread := by
  rw [hname, CodecTable.keyJson, parse_render hj]

/-- What a key is written as is read back from the name of its member. -/
theorem Scalar.decode_key {s : Scalar} {v : Value} (h : s.Admits v) :
    s.decode (CodecTable.keyJson (CodecTable.memberName (jsonOf v))) = .ok v := by
  have hreadable : (jsonOf v).Readable := readable_encode (encode_eq_jsonOf h)
  have hback := decode_jsonOf h
  unfold Admits at h
  -- Only a char and a long are written as texts, so only their names can parse as another value.
  -- The other kinds are written as numbers or booleans, whose text parses as what was written.
  split at h
  case h_3 c =>
    show char.decode (CodecTable.keyJson (String.singleton c)) = _
    -- A digit parses as a number, and is taken for the character nevertheless.
    by_cases hc : '0' ≤ c ∧ c ≤ '9'
    · have hdigit : Decimal.IsDigit c := by
        rw [Decimal.IsDigit, Decimal.digitValue?, if_pos hc, Decimal.digitValue]
      exact decode_digit hdigit
    -- Any other character is no JSON text, so the name stands for itself.
    · obtain ⟨e, he⟩ := parse_singleton_eq_error (Decimal.digitValue?_eq_none hc)
      rw [CodecTable.keyJson, he]
      exact hback
  -- The digits of a long parse as a number.
  case h_6 n =>
    have := n.le_toInt
    have := n.toInt_lt
    have hrange : long.inRange? n.toInt = some n.toInt := inRange?_eq rfl (by omega)
    show long.decode (CodecTable.keyJson (Decimal.intText n.toInt)) = _
    rw [CodecTable.keyJson, parse_intText (by omega) (by omega), decode_long rfl,
      decodeInt_integer (by omega) (by omega) hrange, Except.map, Int64.ofInt_toInt]
  case h_7 => exact h.elim
  all_goals
    rw [keyJson_render hreadable rfl]
    exact hback

end GraphCodec
