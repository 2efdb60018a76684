import Mathlib
import GraphCodec.Codec.Leaf
import GraphCodec.Proofs.Binary.Overflow
import GraphCodec.Proofs.Except
import GraphCodec.Proofs.Json.ScannedNumber

/-!
# Floating-point numbers that are read and cannot be written

A floating-point kind writes finite numbers only, but it reads an infinity where the number that was
written is too large for it, and from the name of one.  `Json.Overflows` says which JSON values
these are.  All other values that a scalar kind reads it also writes
(`Scalar.encode_error_iff_of_decode`).
-/

namespace GraphCodec

/-! ### What is read as a finite number -/

namespace Binary

variable {f : BinaryFormat}

/-- An infinity is not finite. -/
private theorem not_isFinite_infinite (negative : Bool) :
    ¬(infinite negative : Binary f).IsFinite := by
  rintro ⟨y, hy⟩
  cases hy

/-- What is not a number is not finite. -/
private theorem not_isFinite_nan : ¬(nan : Binary f).IsFinite := by
  rintro ⟨y, hy⟩
  cases hy

/-- Whether a text names an infinity or the value that is not a number, in any letter case and with
an optional sign. -/
def IsName (text : String) : Prop :=
  String.ofList ((Numeral.splitSign text.toList).2.map Char.toLower) ∈ ["inf", "infinity", "nan"]

/-- A text is read as a finite number if it is a numeral below the threshold. -/
private theorem isFinite_of_ofText? (hf : 2 ≤ f.exponentBits) {text : String} {x : Binary f}
    (h : ofText? f text = some x) : x.IsFinite ↔
      ¬(IsName text ∨ ∃ n, Numeral.read? text.toList = some n ∧
        f.overflowThreshold ≤ n.magnitude.value) := by
  -- The names of the infinities and of what is not a number are read as such.
  unfold ofText? at h
  dsimp only at h
  split at h
  case h_1 hname =>
    cases h
    exact iff_of_false (not_isFinite_infinite _) (not_not.2 (Or.inl (by simp [IsName, hname])))
  case h_2 hname =>
    cases h
    exact iff_of_false (not_isFinite_infinite _) (not_not.2 (Or.inl (by simp [IsName, hname])))
  case h_3 hname =>
    cases h
    exact iff_of_false not_isFinite_nan (not_not.2 (Or.inl (by simp [IsName, hname])))
  -- Any other text is read as a numeral.
  case h_4 hinf hinfinity hnan =>
    obtain ⟨n, hn, rfl⟩ := Option.map_eq_some_iff.1 h
    have hname : ¬IsName text := by
      simp only [IsName, List.mem_cons, List.not_mem_nil, or_false, not_or]
      exact ⟨hinf, hinfinity, hnan⟩
    rw [ofNumeral, isFinite_ofDecimal hf]
    simp [hname, hn]

end Binary

/-- Whether a JSON value stands for a number that is too large for a format, or for none. -/
def Json.Overflows (f : BinaryFormat) : Json → Prop
  | .number (.double y) => f.overflowThreshold ≤ |y.value|
  | .string text => Binary.IsName (Text.trim text) ∨
      ∃ n, Json.numeral? text = some n ∧ f.overflowThreshold ≤ n.magnitude.value
  | _ => False

/-- Whether a JSON value is none of the numbers that are never read: an integer that does not fit
into 64 bits, or a number of single precision. -/
def Json.IsRead : Json → Prop
  | .number (.integer i) => -2 ^ 63 ≤ i ∧ i < 2 ^ 64
  | .number (.single _) => False
  | _ => True

/-- What a text is parsed as is read. -/
private theorem Json.isRead_of_parse {text : String} {j : Json} (h : Json.parse text = .ok j) :
    j.IsRead := by
  cases j with
  -- A number is an integer of 64 bits or a double.
  | number x =>
    obtain ⟨n, hnumeral, hn⟩ := Json.numeral?_of_parse h
    obtain ⟨hw, hf⟩ := digit_lt_of_read? hnumeral
    obtain ⟨i, rfl, -, -, hlow, hhigh⟩ | ⟨y, _, _, rfl, -⟩ :=
      Json.Number.cases_of_ofNumeral hw hf hn
    · exact ⟨hlow, hhigh⟩
    · trivial
  | _ => trivial

namespace Scalar

/-- The format of a floating-point kind. -/
def format? : Scalar → Option BinaryFormat
  | float => some binary32
  | double => some binary64
  | _ => none

variable {s : Scalar} {f : BinaryFormat}

private theorem exponentBits_of_format? (hs : s.format? = some f) : 2 ≤ f.exponentBits := by
  cases s <;> cases hs <;> decide

/-- Integers of 64 bits are far below the threshold. -/
private theorem pow_lt_overflowThreshold (hs : s.format? = some f) :
    2 ^ 65 < f.overflowThreshold := by
  have hexponent : 65 < 2 ^ (f.exponentBits - 1) - 1 := by cases s <;> cases hs <;> decide
  exact (pow_lt_pow_right₀ (by norm_num) hexponent).trans_le BinaryFormat.pow_le_overflowThreshold

/-- An integer of 64 bits becomes a finite number. -/
private theorem isFinite_convert_ofInt (hs : s.format? = some f) {i : Int} (hlow : -2 ^ 63 ≤ i)
    (hhigh : i < 2 ^ 64) : ((Binary.ofInt binary64 i).convert f).IsFinite := by
  have hbits := exponentBits_of_format? hs
  have hle : (i.natAbs : ℚ) ≤ 2 ^ 64 := by
    have : i.natAbs ≤ 2 ^ 64 := by omega
    exact_mod_cast this
  have hround := (Json.Number.within_rounded Nat.one_pos (binary64.isNormal_one i.natAbs)).2
  -- The integer is far below the threshold of doubles.
  obtain ⟨y, hy⟩ : (Binary.ofInt binary64 i).IsFinite := by
    rw [Binary.ofInt, Binary.isFinite_ofRatio (by decide) _ Nat.one_pos]
    have := pow_lt_overflowThreshold (s := double) rfl
    norm_num at hle this ⊢
    linarith
  have hrank : y.rank.val = binary64.nearest i.natAbs 1 := by
    rw [Binary.ofInt, Binary.ofRatio, Binary.ofRank] at hy
    split at hy <;> cases hy
    rfl
  -- The double is still far below the threshold of either format.
  rw [hy, Binary.isFinite_convert hbits, y.abs_value, hrank]
  have := pow_lt_overflowThreshold hs
  norm_num at hle hround this ⊢
  linarith

/-- A floating-point kind reads a finite number from what does not overflow. -/
private theorem isFinite_of_decodeBinary (hs : s.format? = some f) {j : Json} (hj : j.IsRead)
    {x : Binary f} (h : s.decodeBinary f j = .ok x) : x.IsFinite ↔ ¬j.Overflows f := by
  have hbits := exponentBits_of_format? hs
  unfold decodeBinary at h
  split at h
  -- A number is converted, and overflows if it is too large.
  case h_1 n =>
    cases h
    cases n with
    | integer i => exact iff_of_true (isFinite_convert_ofInt hs hj.1 hj.2) not_false
    | double y => exact (Binary.isFinite_convert hbits y).trans not_le.symm
    | single y => exact hj.elim
  -- A text is read by its numeral or name.
  case h_2 text =>
    split at h
    case h_1 y hy =>
      cases h
      exact Binary.isFinite_of_ofText? hbits hy
    case h_2 => cases h
  case h_3 => cases h

/-- A floating-point number is written if it is finite. -/
private theorem encodeFinite_error_iff (number : Finite f → Json.Number) (x : Binary f) :
    ((∃ k, s.encodeFinite number x = .ok k) ∨
      s.encodeFinite number x = .error (.nonFiniteNumber s)) ∧
      (s.encodeFinite number x = .error (.nonFiniteNumber s) ↔ ¬x.IsFinite) := by
  cases x with
  | nan => exact ⟨Or.inr rfl, iff_of_true rfl Binary.not_isFinite_nan⟩
  | infinite negative => exact ⟨Or.inr rfl, iff_of_true rfl (Binary.not_isFinite_infinite _)⟩
  | finite y => exact ⟨Or.inl ⟨_, rfl⟩, iff_of_false (by intro h; cases h) (not_not.2 ⟨y, rfl⟩)⟩

/-- A kind that is no floating-point kind writes what it reads. -/
private theorem encode_ok_of_decode (hs : s.format? = none) {j : Json} {v : Value}
    (h : s.decode j = .ok v) (hv : v ≠ .null) : ∃ k, s.encode v = .ok k := by
  unfold decode at h
  split at h
  · cases h
    exact absurd rfl hv
  -- The floating-point kinds have formats, and all others write any value.
  · split at h
    case h_6 | h_7 => cases hs
    all_goals
      obtain ⟨x, -, rfl⟩ := Except.map_eq_ok.1 h
      exact ⟨_, rfl⟩

/-- A floating-point kind reads a number of its format, which it writes if it is finite. -/
private theorem exists_of_decode (hs : s.format? = some f) {j : Json} {v : Value}
    (h : s.decode j = .ok v) (hv : v ≠ .null) :
    ∃ x number, s.decodeBinary f j = .ok x ∧ s.encode v = s.encodeFinite (f := f) number x := by
  unfold decode at h
  split at h
  · cases h
    exact absurd rfl hv
  · split at h
    -- The two floating-point kinds read a number of their format.
    case h_6 | h_7 =>
      cases hs
      obtain ⟨x, hx, rfl⟩ := Except.map_eq_ok.1 h
      exact ⟨x, _, hx, rfl⟩
    all_goals cases hs

/-- No finite double overflows its own format. -/
private theorem not_overflows_number (x : Json.Number) : ¬(Json.number x).Overflows binary64 := by
  cases x with
  | double y =>
    rw [Json.Overflows, not_le, y.abs_value]
    exact BinaryFormat.value_lt_overflowThreshold (by decide) y.rank.isLt
  | integer i => exact not_false
  | single y => exact not_false

/-- What a scalar kind reads it also writes, unless it is a floating-point kind and the value
overflows its format, which a number never does if the kind is `double`. -/
theorem encode_error_iff_of_decode {j : Json} {v : Value} (hj : j.IsRead)
    (h : s.decode j = .ok v) (hv : v ≠ .null) :
    ((∃ k, s.encode v = .ok k) ∨ s.encode v = .error (.nonFiniteNumber s)) ∧
      (s.encode v = .error (.nonFiniteNumber s) ↔ ∃ f, s.format? = some f ∧ j.Overflows f) ∧
      (s = double → ∀ x, j = .number x → ∃ k, s.encode v = .ok k) := by
  cases hs : s.format? with
  -- A kind without a format writes what it reads.
  | none =>
    obtain ⟨k, hk⟩ := encode_ok_of_decode hs h hv
    refine ⟨Or.inl ⟨k, hk⟩, iff_of_false ?_ ?_, fun _ _ _ => ⟨k, hk⟩⟩
    · rw [hk]
      simp
    · simp
  -- A floating-point kind refuses exactly what is not finite.
  | some f =>
    obtain ⟨x, number, hx, hencode⟩ := exists_of_decode hs h hv
    obtain ⟨hor, herror⟩ := encodeFinite_error_iff (s := s) number x
    rw [isFinite_of_decodeBinary hs hj hx, not_not] at herror
    rw [hencode]
    refine ⟨hor, by simpa using herror, ?_⟩
    rintro rfl y rfl
    cases hs
    exact hor.resolve_right fun hrefused => not_overflows_number y (herror.1 hrefused)

/-- A large number is parsed, and lies beyond single precision. -/
private theorem parse_power : ∃ x, Json.parse "1e300" = .ok (.number x) ∧
    decide (x.toDouble.convert binary32 = .infinite false) = true :=
  Json.exists_number_of_parse (by decide +kernel)

/-- A large number is read as a double and written. -/
theorem exists_encode_of_decode_power :
    ∃ x, Json.parse "1e300" = .ok (.number x) ∧ (Json.number x).IsRead ∧
      ∃ v, double.decode (.number x) = .ok v ∧ v ≠ .null ∧ ∃ k, double.encode v = .ok k := by
  obtain ⟨x, hx, -⟩ := parse_power
  have hread := Json.isRead_of_parse hx
  have hdecode : double.decode (.number x) = .ok (.double (x.toDouble.convert binary64)) := rfl
  have hne : Value.double (x.toDouble.convert binary64) ≠ .null := by simp
  exact ⟨x, hx, hread, _, hdecode, hne,
    (encode_error_iff_of_decode hread hdecode hne).2.2 rfl x rfl⟩

/-- The same number is read as an infinity of single precision, which is refused when it is
written. -/
theorem not_encode_of_decode_power :
    ∃ j v, Json.parse "1e300" = .ok j ∧ float.decode j = .ok v ∧ v ≠ .null ∧
      ¬∃ k, float.encode v = .ok k := by
  obtain ⟨x, hx, hinfinite⟩ := parse_power
  have hdecode : float.decode (.number x) = .ok (.float (x.toDouble.convert binary32)) := rfl
  -- The number is above the threshold of single precision.
  rw [of_decide_eq_true hinfinite] at hdecode
  have hencode : float.encode (.float (.infinite false)) = .error (.nonFiniteNumber float) := rfl
  refine ⟨_, _, hx, hdecode, by simp, ?_⟩
  rintro ⟨k, hk⟩
  cases hencode.symm.trans hk

end Scalar

end GraphCodec
