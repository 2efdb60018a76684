import Mathlib
import GraphCodec.Codec.Decode
import GraphCodec.Proofs.Json.NumberPrecision
import GraphCodec.Proofs.Json.ScannedNumber

/-!
# Integers read from numbers

An integer kind reads a number through a double, unless the number is written as an integer.  The
double is only close to the number, so that a fraction can be lost before it is looked for:
`Numeral.IsShort` says which numerals are safe.  For these, and for numerals without a fraction and
an exponent, exactly the integers in range are read, each as itself; for all others the integer
differs from the number by at most one part in `2 ^ 51`
(`CodecTable.decode_integer_of_parse`).
-/

namespace GraphCodec

/-- Whether the digits of a numeral, read without the point, are a double as they stand, and are not
moved too far down. -/
def Numeral.IsShort (n : Numeral) : Prop :=
  n.magnitude.digits < 2 ^ 53 ∧ -307 ≤ n.magnitude.exponent

namespace Json.Number

open Decimal

/-- An integer is integral if it is a long. -/
private theorem integral?_integer {i j : Int} :
    (integer j).integral? = some i ↔ j = i ∧ -2 ^ 63 ≤ i ∧ i < 2 ^ 63 := by
  simp only [integral?, int64?]
  split <;> simp <;> omega

/-- A double is integral if it is an integer of at most 53 bits. -/
private theorem integral?_double {y : Finite binary64} {i : Int} :
    (double y).integral? = some i ↔ y.value = i ∧ i.natAbs ≤ 2 ^ 53 := by
  simp only [integral?, Option.bind_eq_bind, Option.bind_eq_some_iff, Finite.toInt?_eq_some]
  constructor
  · rintro ⟨j, hj, hle⟩
    split at hle
    case isTrue hle' => cases hle; exact ⟨hj, hle'⟩
    case isFalse => cases hle
  · rintro ⟨hi, hle⟩
    exact ⟨i, hi, if_pos hle⟩

/-- A power of ten far below one makes every significand small. -/
theorem mul_power_lt {sig : Nat} {e : Int} (hsig : sig < 2 ^ 64) (he : e < -307) :
    (sig : ℚ) * 10 ^ e < 1 / 2 ^ 52 := by
  have hpow : (10 : ℚ) ^ e ≤ 10 ^ (-40 : Int) := zpow_le_zpow_right₀ (by norm_num) (by omega)
  have hsig' : (sig : ℚ) < 2 ^ 64 := by exact_mod_cast hsig
  calc (sig : ℚ) * 10 ^ e ≤ sig * 10 ^ (-40 : Int) :=
        mul_le_mul_of_nonneg_left hpow (Nat.cast_nonneg sig)
    _ ≤ 2 ^ 64 * 10 ^ (-40 : Int) := mul_le_mul_of_nonneg_right hsig'.le (by positivity)
    _ < 1 / 2 ^ 52 := by norm_num

section Doubles

variable {n : Numeral} {y : Finite binary64} {sig : Nat} {e i : Int}

/-- A number with a sign. -/
private theorem value_eq_iff (hneg : y.negative = n.negative)
    (h : ∀ k : Int, k ≤ 2 ^ 53 → (binary64.value y.rank = k ↔ n.magnitude.value = k))
    -- The magnitudes are compared for the integer or for its opposite.
    (hi : i.natAbs ≤ 2 ^ 53) : y.value = i ↔ n.value = i := by
  unfold Finite.value Numeral.value
  rw [hneg]
  cases n.negative with
  | false => exact h i (by omega)
  | true =>
    have hminus := h (-i) (by omega)
    rw [Int.cast_neg] at hminus
    simp only [if_true, neg_eq_iff_eq_neg]
    exact hminus

/-- A double that stands for a short numeral is an integer up to `2 ^ 53` exactly if the numeral
is. -/
private theorem value_eq_iff_of_short (hshort : n.IsShort) (hy : scaled? n.negative sig e = some y)
    (hstands : StandsFor sig e n) (hi : i.natAbs ≤ 2 ^ 53) : y.value = i ↔ n.value = i := by
  have hdigits := hshort.1
  obtain ⟨rfl, rfl⟩ := hstands.exact (by omega)
  exact value_eq_iff (of_scaled hy).1
    (fun k hk => value_scaled_iff hshort.1 hshort.2 hk hy) hi

/-- A double that stands for a large numeral is large. -/
private theorem lt_value_of_large (hlarge : 2 ^ 63 ≤ n.magnitude.value)
    (hy : scaled? n.negative sig e = some y) (hstands : StandsFor sig e n) :
    2 ^ 53 < binary64.value y.rank := by
  have hq := hstands.within.2
  -- An extreme negative power would make the numeral small.
  have he : -307 ≤ e := by
    by_contra he
    have := mul_power_lt hstands.lt (Int.not_le.1 he)
    norm_num at this hq hlarge
    linarith
  -- Reading it keeps it above `2 ^ 53`.
  have hr := (within_scaled he hy).1
  norm_num at hq hr hlarge ⊢
  linarith

/-- The magnitude of a double that is an integer. -/
theorem value_eq_natAbs (hi : y.value = i) : binary64.value y.rank = i.natAbs := by
  rw [← y.abs_value, hi, ← Int.cast_abs, Int.abs_eq_natAbs, Int.cast_natCast]

/-- A double that is an integer and stands for a numeral is close to the numeral. -/
private theorem abs_value_sub_le (hy : scaled? n.negative sig e = some y)
    (hstands : StandsFor sig e n)
    (hi : y.value = i) : |n.value - i| ≤ (|(i : ℚ)| + 1) / 2 ^ 51 := by
  obtain ⟨hneg, -⟩ := of_scaled hy
  have hr := value_eq_natAbs hi
  -- It is enough to compare the magnitudes.
  have hmagnitude : |n.magnitude.value - binary64.value y.rank| ≤
      (binary64.value y.rank + 1) / 2 ^ 51 := by
    obtain ⟨hk1, hk2⟩ := hstands.within
    norm_num at hk1 hk2
    by_cases he : -307 ≤ e
    -- The shares that are lost when digits are dropped and when the rest is rounded add up.
    · obtain ⟨hs1, hs2⟩ := within_scaled he hy
      have hr0 := binary64.value_nonneg y.rank
      norm_num at hs1 hs2 ⊢
      rw [abs_le]
      constructor <;> linarith
    · -- Both are zero, or almost.
      have hlow := Int.not_le.1 he
      have hq := mul_power_lt hstands.lt hlow
      have hr1 := scaled_lt_one hstands.lt hlow hy
      have hr0 : binary64.value y.rank = 0 := by
        rw [hr] at hr1 ⊢
        have : i.natAbs < 1 := by exact_mod_cast hr1
        rw [Nat.lt_one_iff.1 this, Nat.cast_zero]
      have hq0 : 0 ≤ (sig : ℚ) * 10 ^ e := by positivity
      rw [hr0]
      norm_num at hq ⊢
      rw [abs_le]
      constructor <;> linarith
  rw [← hi, y.abs_value]
  unfold Finite.value Numeral.value
  rw [hneg]
  cases n.negative with
  | false => exact hmagnitude
  | true =>
    simp only [if_true]
    rw [← abs_neg] at hmagnitude
    convert hmagnitude using 2
    ring

end Doubles

/-! ### Integers -/

variable {n : Numeral} {x : Number}

/-- The integer that a number is read as is close to the numeral. -/
private theorem abs_sub_le_of_integral? (hw : ∀ d ∈ n.whole, d < 10) (hf : ∀ d ∈ n.fraction, d < 10)
    (hx : ofNumeral? n = some x) {i : Int} (h : x.integral? = some i) :
    |n.value - i| ≤ (|(i : ℚ)| + 1) / 2 ^ 51 := by
  obtain ⟨j, rfl, -, hj, -⟩ | ⟨y, sig, e, rfl, hy, hstands, -⟩ := cases_of_ofNumeral hw hf hx
  · obtain ⟨rfl, -⟩ := integral?_integer.1 h
    rw [hj, sub_self, abs_zero]
    positivity
  · exact abs_value_sub_le hy hstands (integral?_double.1 h).1

/-- A numeral that is an integer or short is read as the integer that it denotes, if that is in
range. -/
private theorem integral?_eq_some_iff (hw : ∀ d ∈ n.whole, d < 10) (hf : ∀ d ∈ n.fraction, d < 10)
    (hx : ofNumeral? n = some x) (hn : n.isInteger = true ∨ n.IsShort) {i : Int} :
    x.integral? = some i ↔
      n.value = i ∧ -2 ^ 63 ≤ i ∧ i < 2 ^ 63 ∧ (n.isInteger = true ∨ i.natAbs ≤ 2 ^ 53) := by
  obtain ⟨j, rfl, hint, hj, -⟩ | ⟨y, sig, e, rfl, hy, hstands, hint⟩ := cases_of_ofNumeral hw hf hx
  -- An integer is read as it is.
  · rw [integral?_integer, hj, Int.cast_inj]
    simp [hint]
  -- Any other numeral is read as a double.
  · rw [integral?_double]
    by_cases hinteger : n.isInteger = true
    · have hmagnitude := Numeral.magnitude_of_isInteger hinteger
      have hvalue : |n.value| = n.magnitude.digits := by
        rw [Numeral.value, hmagnitude, Decimal.value]
        split <;> simp
      obtain h0 | hlarge := hint hinteger
      · -- Minus zero is the only integer that is read as a double and in range.
        have hshort : n.IsShort := by
          rw [Numeral.IsShort, h0, hmagnitude]
          dsimp only
          omega
        rw [h0, Nat.cast_zero, abs_eq_zero] at hvalue
        constructor
        · rintro ⟨hi, hle⟩
          exact ⟨(value_eq_iff_of_short hshort hy hstands hle).1 hi, by omega, by omega,
            Or.inl hinteger⟩
        · rintro ⟨hi, -⟩
          have hi0 : i = 0 := by
            rw [hvalue] at hi
            exact_mod_cast hi.symm
          have hle : i.natAbs ≤ 2 ^ 53 := by rw [hi0]; decide
          exact ⟨(value_eq_iff_of_short hshort hy hstands hle).2 hi, hle⟩
      -- Any other integer is too large for a double that is read as a whole number.
      · apply iff_of_false
        · rintro ⟨hi, hle⟩
          have hlarge' : (2 ^ 63 : ℚ) ≤ n.magnitude.value := by
            rw [hmagnitude] at hlarge ⊢
            rw [Decimal.value, zpow_zero, mul_one]
            exact_mod_cast hlarge.le
          have hbig := lt_value_of_large hlarge' hy hstands
          rw [value_eq_natAbs hi] at hbig
          have : 2 ^ 53 < i.natAbs := by exact_mod_cast hbig
          omega
        · rintro ⟨hi, hlow, hhigh, -⟩
          rw [hi, ← Int.cast_abs, Int.abs_eq_natAbs, Int.cast_natCast] at hvalue
          have : i.natAbs = n.magnitude.digits := by exact_mod_cast hvalue
          omega
    -- A short numeral is a whole number exactly if its double is one.
    · have hshort := hn.resolve_left hinteger
      constructor
      · rintro ⟨hi, hle⟩
        exact ⟨(value_eq_iff_of_short hshort hy hstands hle).1 hi, by omega, by omega, Or.inr hle⟩
      · rintro ⟨hi, -, -, hor⟩
        have hle := hor.resolve_left hinteger
        exact ⟨(value_eq_iff_of_short hshort hy hstands hle).2 hi, hle⟩

end Json.Number

/-! ### The codecs of integer kinds -/

namespace Scalar

/-- The value of an integer kind for an integer in its range. -/
def integer (s : Scalar) (i : Int) : Value :=
  match s with
  | byte => .byte (.ofInt i)
  | short => .short (.ofInt i)
  | int => .int (.ofInt i)
  | _ => .long (.ofInt i)

variable {s : Scalar} {least greatest : Int}

/-- An integer is in range if it is between the bounds of the kind. -/
theorem inRange?_eq_some_iff (hs : s.integerRange? = some (least, greatest)) {i j : Int} :
    s.inRange? i = some j ↔ i = j ∧ least ≤ i ∧ i ≤ greatest := by
  rw [inRange?, hs]
  simp only [Option.bind_eq_bind, Option.bind_some, Option.ite_none_right_eq_some,
    Option.some.injEq]
  tauto

/-- An integer kind reads an integer and makes a value of it. -/
theorem decode_eq_map_integer (hs : s.integerRange? = some (least, greatest)) {j : Json}
    (hj : j.isNull = false) : s.decode j = (s.decodeInt j).map s.integer := by
  cases s <;> first | cases hs; done | (rw [decode, hj]; rfl)

/-- What an integer kind reads from a number. -/
theorem decode_number_eq_ok_iff (hs : s.integerRange? = some (least, greatest)) {x : Json.Number}
    {v : Value} : s.decode (.number x) = .ok v ↔
      ∃ i, v = s.integer i ∧ least ≤ i ∧ i ≤ greatest ∧ x.integral? = some i := by
  -- The number is integral, and the integer is in range.
  have hread : ∀ i, x.integral? >>= s.inRange? = some i ↔
      x.integral? = some i ∧ least ≤ i ∧ i ≤ greatest := by
    intro i
    simp only [Option.bind_eq_bind, Option.bind_eq_some_iff, inRange?_eq_some_iff hs]
    constructor
    · rintro ⟨j, hj, rfl, hrange⟩
      exact ⟨hj, hrange⟩
    · rintro ⟨hi, hrange⟩
      exact ⟨i, hi, rfl, hrange⟩
  rw [decode_eq_map_integer hs rfl, decodeInt]
  -- If an integer is read, it is the only one.
  cases hx : x.integral? >>= s.inRange? with
  | some i =>
    obtain ⟨hi, hlow, hhigh⟩ := (hread i).1 hx
    constructor
    · intro h
      cases h
      exact ⟨i, rfl, hlow, hhigh, hi⟩
    · rintro ⟨j, rfl, -, -, hj⟩
      obtain rfl := Option.some.inj (hi.symm.trans hj)
      rfl
  -- Nothing is read, so there is no such integer.
  | none =>
    constructor
    · intro h
      cases h
    · rintro ⟨i, -, hlow, hhigh, hi⟩
      cases hx.symm.trans ((hread i).2 ⟨hi, hlow, hhigh⟩)

/-- An integer kind refuses a number with one error only. -/
private theorem decode_number_error (hs : s.integerRange? = some (least, greatest))
    (x : Json.Number) :
    (∃ v, s.decode (.number x) = .ok v) ∨
      s.decode (.number x) = .error (.malformedNumber s x.text) := by
  rw [decode_eq_map_integer hs rfl, decodeInt]
  cases x.integral? >>= s.inRange? with
  | some i => exact Or.inl ⟨_, rfl⟩
  | none => exact Or.inr rfl

/-- The integers of every kind fit into 64 bits. -/
private theorem bounds_of_integerRange? (hs : s.integerRange? = some (least, greatest)) :
    -2 ^ 63 ≤ least ∧ greatest < 2 ^ 63 := by
  cases s <;> cases hs <;> decide

end Scalar

namespace CodecTable

/-- What an integer kind reads from a text that is a number.  A numeral that is an integer, or
short, is read exactly if it is a whole number in range, where a numeral with a fraction or an
exponent may be at most `2 ^ 53`, and refused otherwise.  Whatever else is read is close to the
numeral, but it can be another number. -/
theorem decode_integer_of_parse (t : CodecTable) {s : Scalar} {least greatest : Int}
    (hs : s.integerRange? = some (least, greatest)) {text : String} {x : Json.Number}
    (hx : Json.parse text = .ok (.number x)) :
    ∃ n, Json.numeral? text = some n ∧
      (n.isInteger = true ∨ n.IsShort → ∀ v, t.decode (.scalar s) text = .ok v ↔
        ∃ i, v = s.integer i ∧ least ≤ i ∧ i ≤ greatest ∧ n.value = i ∧
          (n.isInteger = true ∨ i.natAbs ≤ 2 ^ 53)) ∧
      (∀ v, t.decode (.scalar s) text = .ok v → ∃ i, v = s.integer i ∧ least ≤ i ∧ i ≤ greatest ∧
        |n.value - i| ≤ (|(i : ℚ)| + 1) / 2 ^ 51) ∧
      ((∃ v, t.decode (.scalar s) text = .ok v) ∨
        t.decode (.scalar s) text = .error (.malformedNumber s x.text)) := by
  obtain ⟨n, hnumeral, hn⟩ := Json.numeral?_of_parse hx
  obtain ⟨hw, hf⟩ := digit_lt_of_read? hnumeral
  obtain ⟨hlow, hhigh⟩ := Scalar.bounds_of_integerRange? hs
  have hdecode : t.decode (.scalar s) text = s.decode (.number x) := by
    rw [decode, hx]
    dsimp only
    rw [decodeJson]
  rw [hdecode]
  refine ⟨n, hnumeral, fun hexact v => ?_, fun v hv => ?_, Scalar.decode_number_error hs x⟩
  · -- A numeral that is short or an integer is scanned as a whole number exactly if it is one.
    rw [Scalar.decode_number_eq_ok_iff hs]
    apply exists_congr
    intro i
    rw [Json.Number.integral?_eq_some_iff hw hf hn hexact]
    constructor
    · rintro ⟨hv, hl, hg, hi, -, -, hsize⟩
      exact ⟨hv, hl, hg, hi, hsize⟩
    · rintro ⟨hv, hl, hg, hi, hsize⟩
      exact ⟨hv, hl, hg, hi, by omega, by omega, hsize⟩
  -- Whatever is read is an integer of the double, which is close to the numeral.
  · obtain ⟨i, hi, hl, hg, hintegral⟩ := (Scalar.decode_number_eq_ok_iff hs).1 hv
    exact ⟨i, hi, hl, hg, Json.Number.abs_sub_le_of_integral? hw hf hn hintegral⟩

/-- A number is read exactly, although it is written with a point and an exponent. -/
theorem decode_integer_of_fifteen :
    let t := empty defaultTag
    Scalar.byte.integerRange? = some (-2 ^ 7, 2 ^ 7 - 1) ∧
      (∃ x, Json.parse " 1.5e1 " = .ok (.number x)) ∧
      ∀ v, t.decode (.scalar .byte) " 1.5e1 " = .ok v ↔ v = .byte 15 := by
  intro t
  -- The number is read through a double that is fifteen.
  obtain ⟨x, hparse, -⟩ : ∃ x, Json.parse " 1.5e1 " = .ok (.number x) ∧
      decide (x.integral? = some 15) = true :=
    Json.exists_number_of_parse (by decide +kernel)
  have hnumeral : Json.numeral? " 1.5e1 " = some ⟨false, [1], [5], some 1⟩ := by decide +kernel
  obtain ⟨n, hn, hexact, -⟩ := decode_integer_of_parse t (s := .byte) rfl hparse
  cases hnumeral.symm.trans hn
  -- Its digits and its power of ten are small.
  have hshort : Numeral.IsShort ⟨false, [1], [5], some 1⟩ := by
    rw [Numeral.IsShort]
    decide
  have hvalue : Numeral.value ⟨false, [1], [5], some 1⟩ = (15 : Int) := by
    simp [Numeral.value, Decimal.value, Numeral.magnitude, Decimal.ofDigits]
  refine ⟨rfl, ⟨x, hparse⟩, fun v => (hexact (Or.inr hshort) v).trans ?_⟩
  constructor
  · rintro ⟨i, rfl, -, -, hi, -⟩
    rw [hvalue] at hi
    obtain rfl : 15 = i := by exact_mod_cast hi
    rfl
  · rintro rfl
    exact ⟨15, rfl, by decide, by decide, hvalue, Or.inr (by decide)⟩

/-- The last integer below `2 ^ 53` is read as the integer before it if it is written with a
point. -/
theorem not_decode_integer :
    let t := empty defaultTag
    let text := "9007199254740991.0"
    (∃ x, Json.parse text = .ok (.number x)) ∧
      t.decode (.scalar .long) text = .ok (.long 9007199254740990) ∧
      ∃ n, Json.numeral? text = some n ∧ n.value = 9007199254740991 := by
  intro t text
  -- The double that is read is the one below.
  obtain ⟨x, hparse, hx⟩ : ∃ x, Json.parse text = .ok (.number x) ∧
      decide (x.integral? = some 9007199254740990) = true :=
    Json.exists_number_of_parse (by decide +kernel)
  have hread : Scalar.long.decode (.number x) = .ok (.long 9007199254740990) :=
    (Scalar.decode_number_eq_ok_iff rfl).2 ⟨_, rfl, by decide, by decide, of_decide_eq_true hx⟩
  have hnumeral : Json.numeral? text =
      some ⟨false, [9, 0, 0, 7, 1, 9, 9, 2, 5, 4, 7, 4, 0, 9, 9, 1], [0], none⟩ := by decide +kernel
  refine ⟨⟨x, hparse⟩, ?_, _, hnumeral, ?_⟩
  · rw [decode, hparse]
    dsimp only
    rw [decodeJson, hread]
  -- The numeral itself denotes the odd integer.
  · have hdigits : Numeral.magnitude
        ⟨false, [9, 0, 0, 7, 1, 9, 9, 2, 5, 4, 7, 4, 0, 9, 9, 1], [0], none⟩ =
          ⟨90071992547409910, -1⟩ := by decide
    simp only [Numeral.value, hdigits, Decimal.value, Bool.false_eq_true, if_false]
    norm_num

end CodecTable

end GraphCodec
