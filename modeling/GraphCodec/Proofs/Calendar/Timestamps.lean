import Mathlib
import GraphCodec.Calendar.Timestamp
import GraphCodec.Proofs.Calendar.Fractions
import GraphCodec.Proofs.Calendar.Padded

/-!
# Timestamps are read back

The text of a timestamp is read back as the timestamp to the nanosecond, unless the year is negative
or the second is a leap second, and then it is refused (`Timestamp.parse_text`).  A fraction of a
second survives two roundings to doubles, because their shares of it are far below half a nanosecond
(`Timestamp.nanosOf_ofDecimal`).
-/

namespace GraphCodec.Calendar.Timestamp

open Decimal

/-! ### Splitting -/

/-- A text without the separator is a single part. -/
theorem splitAt_of_not_mem {sep : Char} {cs : List Char} (h : sep ∉ cs) :
    splitAt sep cs = [cs] := by
  induction cs with
  | nil => rfl
  | cons c cs ih =>
    simp only [List.mem_cons, not_or] at h
    rw [splitAt, if_neg (Ne.symm h.1), ih h.2]

/-- The part in front of a separator is split off. -/
theorem splitAt_append {sep : Char} {front : List Char} (h : sep ∉ front) (rest : List Char) :
    splitAt sep (front ++ sep :: rest) = front :: splitAt sep rest := by
  induction front with
  | nil => rw [List.nil_append, splitAt, if_pos rfl]
  | cons c front ih =>
    simp only [List.mem_cons, not_or] at h
    rw [List.cons_append, splitAt, if_neg (Ne.symm h.1), ih h.2]

/-! ### Days -/

/-- The characters of a date are digits, hyphens and a sign. -/
private theorem not_mem_dateText {c : Char} (hc : ¬IsDigit c) (hhyphen : c ≠ '-') (hplus : c ≠ '+')
    (year : Int) (month day : Nat) : c ∉ dateText year month day := by
  -- Only the year can have a sign.
  have hyear : c ∉ yearText year := by
    unfold yearText
    split_ifs
    · exact not_mem_padded hc _ _
    · simp [hhyphen, not_mem_padded hc]
    · simp [hplus, not_mem_padded hc]
  simp [dateText, hyear, hhyphen, not_mem_padded hc]

/-- A day that is not before the year zero is read back. -/
private theorem readDay?_dateText {d : Day} (h : 0 ≤ d.year) :
    readDay? (dateText d.year d.month d.day) = some d := by
  have hhyphen : ¬IsDigit '-' := by decide
  -- A year that is not negative is written with a plus sign or without a sign.
  have hnat : (d.year.natAbs : Int) = d.year := by omega
  have hyear : '-' ∉ yearText d.year ∧ Numeral.readNat? (yearText d.year) = some d.year.natAbs := by
    unfold yearText
    split_ifs with hshort hneg
    · exact ⟨not_mem_padded hhyphen _ _, Numeral.readNat?_padded _ _⟩
    · omega
    · exact ⟨by simp [not_mem_padded hhyphen], Numeral.ofDigits?_padded _ _⟩
  -- The year has no hyphen in it, so the text splits into the three fields.
  have hsplit : splitAt '-' (dateText d.year d.month d.day) =
      [yearText d.year, padded 2 d.month, padded 2 d.day] := by
    rw [dateText, List.append_assoc, List.cons_append, splitAt_append hyear.1,
      splitAt_append (not_mem_padded hhyphen _ _), splitAt_of_not_mem (not_mem_padded hhyphen _ _)]
  have hday : Day.of? d.year d.month d.day = some d := dif_pos d.isDay
  simp only [readDay?, hsplit, hyear.2, Numeral.readNat?_padded, Option.bind_eq_bind,
    Option.bind_some, hnat, hday]

/-- A day before the year zero is refused, because of the hyphen in front. -/
private theorem readDay?_dateText_of_neg {d : Day} (h : d.year < 0) :
    readDay? (dateText d.year d.month d.day) = none := by
  have hhyphen : ¬IsDigit '-' := by decide
  -- The sign of the year is a hyphen, so there is an empty part in front of it.
  have hyear : yearText d.year = [] ++ '-' :: padded 4 d.year.natAbs := by
    rw [yearText, if_neg (by omega), if_pos h]
    rfl
  -- The four parts that result are not a day.
  have hsplit : splitAt '-' (dateText d.year d.month d.day) =
      [[], padded 4 d.year.natAbs, padded 2 d.month, padded 2 d.day] := by
    rw [dateText, hyear]
    simp only [List.append_assoc, List.cons_append]
    rw [splitAt_append (by simp), splitAt_append (not_mem_padded hhyphen _ _),
      splitAt_append (not_mem_padded hhyphen _ _), splitAt_of_not_mem (not_mem_padded hhyphen _ _)]
  simp only [readDay?, hsplit]

/-! ### Fractions of a second -/

/-- The digits of a fraction are read as its nanoseconds. -/
private theorem readFraction?_padded {n m k : Nat} (hn : n < 10 ^ 9) (hk : 0 < k) (hk9 : k ≤ 9)
    (h : n = m * 10 ^ (9 - k)) : readFraction? (padded k m) = some n := by
  -- The places behind the digits are those that are missing from nine.
  have hpow : 10 ^ 9 = 10 ^ k * 10 ^ (9 - k) := by
    rw [← Nat.pow_add]
    congr 1
    omega
  have hlt : m < 10 ^ k := by
    rw [h, hpow] at hn
    exact Nat.lt_of_mul_lt_mul_right hn
  -- The decimal is the nanoseconds, in seconds.
  have hvalue : Decimal.value ⟨m, 0 - k⟩ * 10 ^ 9 = n := by
    have hpow' : (10 : ℚ) ^ 9 = 10 ^ k * 10 ^ (9 - k) := by exact_mod_cast hpow
    rw [Decimal.value, h, hpow', zero_sub, zpow_neg, zpow_natCast]
    push_cast
    field_simp
  -- The double of it is off by at most a share, which is too little to reach another number.
  obtain ⟨i, hi, hnanos⟩ := nanosOf_ofDecimal ⟨m, 0 - k⟩
  have hi' : i = n := by
    rw [hvalue] at hi
    -- The share of less than a second is less than one half.
    have hn' : (n : ℚ) ≤ 10 ^ 9 := by exact_mod_cast hn.le
    have hlt : |((i : ℤ) - n : ℚ)| < 1 := by
      calc |((i : ℤ) - n : ℚ)| ≤ 1 / 2 + 1 / 2 ^ 51 * n := hi
        _ ≤ 1 / 2 + 1 / 2 ^ 51 * 10 ^ 9 := by gcongr
        _ < 1 := by norm_num
    have hint : |(i - n : ℤ)| < 1 := by exact_mod_cast hlt
    rw [Int.abs_lt_one_iff] at hint
    omega
  -- The digits are read without an exponent behind them.
  refine readFraction?_eq_some_iff.2 ⟨padded k m, [], 0, (List.append_nil _).symm,
    fun _ => isDigit_of_mem_padded, .none, ?_⟩
  rw [ofDigits_padded, length_padded hk hlt, hnanos, hi', greatestNanos]
  omega

/-! ### Times -/

/-- The characters of a time are digits, colons and a point. -/
theorem not_mem_clockText {c : Char} (hc : ¬IsDigit c) (hcolon : c ≠ ':')
    (hour minute second nanos : Nat) : c ∉ clockText hour minute second nanos := by
  simp [clockText, hcolon, not_mem_padded hc]

/-- The characters of a fraction are digits and a point. -/
private theorem not_mem_fractionText {c : Char} (hc : ¬IsDigit c) (hpoint : c ≠ '.') (nanos : Nat) :
    c ∉ fractionText nanos := by
  unfold fractionText
  dsimp only
  split_ifs <;> simp [hpoint, not_mem_padded hc]

/-- The fraction of a second is read back, whichever of its widths it has. -/
private theorem fractionText_cases (nanos : Nat) :
    fractionText nanos = [] ∧ nanos % 1000000000 = 0 ∨
      ∃ ds, fractionText nanos = '.' :: ds ∧ readFraction? ds = some (nanos % 1000000000) := by
  have hn : nanos % 1000000000 < 10 ^ 9 := Nat.mod_lt _ (by decide)
  unfold fractionText
  dsimp only
  -- No fraction, or one of three, six or nine digits.
  split_ifs with h0 h6 h3
  · exact Or.inl ⟨rfl, h0⟩
  · exact Or.inr ⟨_, rfl, readFraction?_padded hn (by decide) (by decide) (by omega)⟩
  · exact Or.inr ⟨_, rfl, readFraction?_padded hn (by decide) (by decide) (by omega)⟩
  · exact Or.inr ⟨_, rfl, readFraction?_padded hn (by decide) (by decide) (by omega)⟩

/-- A time is read back, but for a leap second, which is written as second 60. -/
private theorem readTime?_text (t : Time) :
    readTime? (clockText t.hour t.minute t.second t.nanos ++ fractionText t.nanos) =
      if 1000000000 ≤ t.nanos then none else some t := by
  have hcolon : ¬IsDigit ':' := by decide
  -- The clock ends at the point of the fraction, or with the text.
  have hspan : (clockText t.hour t.minute t.second t.nanos ++ fractionText t.nanos).span (· ≠ '.') =
      (clockText t.hour t.minute t.second t.nanos, fractionText t.nanos) := by
    apply List.span_append
    · intro c hc
      have hpoint : c ≠ '.' := by
        rintro rfl
        exact not_mem_clockText (by decide) (by decide) _ _ _ _ hc
      simpa using hpoint
    · unfold fractionText
      dsimp only
      split_ifs <;> simp
  -- The clock splits into its three fields.
  have hsplit : splitAt ':' (clockText t.hour t.minute t.second t.nanos) =
      [padded 2 t.hour, padded 2 t.minute,
        padded 2 (if 1000000000 ≤ t.nanos then t.second + 1 else t.second)] := by
    rw [clockText, List.append_assoc, List.cons_append, splitAt_append (not_mem_padded hcolon _ _),
      splitAt_append (not_mem_padded hcolon _ _), splitAt_of_not_mem (not_mem_padded hcolon _ _)]
  -- The fields are read as numbers, the second of a leap second as one more.
  have hread : readTime? (clockText t.hour t.minute t.second t.nanos ++ fractionText t.nanos) =
      Time.of? t.hour t.minute (if 1000000000 ≤ t.nanos then t.second + 1 else t.second)
        (t.nanos % 1000000000) := by
    obtain ⟨hfraction, h0⟩ | ⟨ds, hfraction, hds⟩ := fractionText_cases t.nanos
    · rw [hfraction] at hspan ⊢
      simp only [readTime?, hspan, hsplit, Numeral.readNat?_padded, h0, Option.bind_eq_bind,
        Option.bind_some]
    · rw [hfraction] at hspan ⊢
      simp only [readTime?, hspan, hsplit, Numeral.readNat?_padded, hds, Option.bind_eq_bind,
        Option.bind_some]
  rw [hread]
  have htime := t.isTime
  unfold IsTime at htime
  split_ifs with hleap
  · -- The last second of the minute would be the second 60.
    have hsecond := htime.2.2.2.2 hleap
    apply dif_neg
    unfold IsTime
    omega
  -- Otherwise the nanoseconds are less than a second and are read as they are.
  · have hnanos : t.nanos % 1000000000 = t.nanos := Nat.mod_eq_of_lt (by omega)
    rw [hnanos]
    exact dif_pos t.isTime

/-- The text of a timestamp is read back to the nanosecond, but for a year before zero, whose sign
is taken for a hyphen, and for a leap second, whose minute would have a second 60. -/
theorem parse_text (t : Timestamp) :
    parse t.text =
      if t.day.year < 0 then .error (.invalidDate t.day.text)
      else if 1000000000 ≤ t.time.nanos then
        .error (.invalidTime (String.ofList
          (clockText t.time.hour t.time.minute t.time.second t.time.nanos ++
            fractionText t.time.nanos)))
      else .ok t := by
  have hblank : ¬IsDigit ' ' := by decide
  -- Neither the day nor the time has a blank in it, so the text splits in two.
  have hsplit : splitAt ' ' t.text.toList = [dateText t.day.year t.day.month t.day.day,
      clockText t.time.hour t.time.minute t.time.second t.time.nanos ++
        fractionText t.time.nanos] := by
    rw [text, String.toList_ofList, List.append_assoc, List.cons_append,
      splitAt_append (not_mem_dateText hblank (by decide) (by decide) _ _ _), splitAt_of_not_mem]
    rw [List.mem_append, not_or]
    exact ⟨not_mem_clockText hblank (by decide) _ _ _ _,
      not_mem_fractionText hblank (by decide) _⟩
  rw [parse, hsplit]
  dsimp only
  rw [readTime?_text]
  -- The day decides first, and then the time.
  by_cases hyear : t.day.year < 0
  · rw [readDay?_dateText_of_neg hyear, if_pos hyear]
    rfl
  · rw [readDay?_dateText (Int.not_lt.1 hyear), if_neg hyear]
    split_ifs <;> rfl

end GraphCodec.Calendar.Timestamp
