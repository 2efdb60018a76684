import Mathlib
import GraphCodec.Calendar.Timestamp
import GraphCodec.Proofs.Binary.Overflow
import GraphCodec.Proofs.Json.ScannedNumber

/-!
# Fractions of a second

A fraction of a second is written as digits, which may have an exponent behind them, and goes
through two doubles before it is rounded to nanoseconds.  Both roundings together are off by a share
of `1 / 2 ^ 51` of the fraction (`nanosOf_ofDecimal`), so the nanoseconds of a fraction of at most
fifteen digits are the nearest ones (`IsNanos.nearest`), while those of a longer one need not be.
-/

namespace GraphCodec.Calendar.Timestamp

open Decimal

/-! ### Rounding to nanoseconds -/

/-- Whether the nanoseconds are those nearest to a fraction of a second, up to a share of the
fraction; they never make a whole second. -/
def IsNanos (share q : ℚ) (n : Nat) : Prop :=
  ∃ k : ℕ, |(k : ℚ) - q * 10 ^ 9| ≤ 1 / 2 + share * (q * 10 ^ 9) ∧ n = min k greatestNanos

/-- From a whole second on the nanoseconds are the greatest. -/
theorem isNanos_greatest {share q : ℚ} (hshare : 0 ≤ share) (hq : 1 ≤ q) :
    IsNanos share q greatestNanos := by
  -- The fraction alone is a billion nanoseconds or more.
  have hx : (10 : ℚ) ^ 9 ≤ q * 10 ^ 9 := le_mul_of_one_le_left (by positivity) hq
  have herror : 0 ≤ share * (q * 10 ^ 9) := by positivity
  unfold IsNanos
  generalize q * 10 ^ 9 = x at *
  -- The nearest whole number is at least a billion, and the least of it and the greatest is taken.
  have hfloor : (⌊x + 1 / 2⌋₊ : ℚ) ≤ x + 1 / 2 := Nat.floor_le (by linarith)
  have hlt : x + 1 / 2 < ⌊x + 1 / 2⌋₊ + 1 := Nat.lt_floor_add_one _
  refine ⟨⌊x + 1 / 2⌋₊, ?_, (Nat.min_eq_right ?_).symm⟩
  · rw [abs_le]
    constructor <;> linarith
  · rw [greatestNanos]
    apply Nat.le_floor
    norm_num at hx ⊢
    linarith

/-- A small fraction rounds down to nothing. -/
private theorem isNanos_zero {share q : ℚ} (hshare : 0 ≤ share) (hq : 0 ≤ q)
    (h : q * 10 ^ 9 ≤ 1 / 2) :
    IsNanos share q 0 := by
  have herror : 0 ≤ share * (q * 10 ^ 9) := by positivity
  refine ⟨0, ?_, rfl⟩
  rw [Nat.cast_zero, zero_sub, abs_neg, abs_of_nonneg (by positivity)]
  linarith

/-- A quotient that is not too small has a full mantissa. -/
theorem isNormal_of_le {num den : Nat} (hden : 0 < den) (h : 1 / 10 ^ 11 ≤ (num : ℚ) / den) :
    binary64.IsNormal num den := by
  right
  have hscale : (2 : ℚ) ^ 100 ≤ 2 ^ binary64.scale := pow_le_pow_right₀ (by norm_num) (by decide)
  -- The full mantissas begin far below the bound.
  have hsize : (binary64.binadeSize : ℚ) ≤ 1 / 10 ^ 11 * 2 ^ 100 := by
    norm_num [BinaryFormat.binadeSize, binary64]
  have hden' : (0 : ℚ) < den := by exact_mod_cast hden
  have hle : (binary64.binadeSize : ℚ) * den ≤ num * 2 ^ binary64.scale := by
    rw [le_div_iff₀ hden'] at h
    calc (binary64.binadeSize : ℚ) * den ≤ 1 / 10 ^ 11 * 2 ^ 100 * den :=
          mul_le_mul_of_nonneg_right hsize hden'.le
      _ ≤ 1 / 10 ^ 11 * 2 ^ binary64.scale * den := by gcongr
      _ = 1 / 10 ^ 11 * den * 2 ^ binary64.scale := by ring
      _ ≤ num * 2 ^ binary64.scale := mul_le_mul_of_nonneg_right h (by positivity)
  exact_mod_cast hle

/-- A billion is a double. -/
private theorem value_giga : binary64.value (Json.Number.powerOfTen 9) = 10 ^ 9 := by
  have h := binary64.value_nearest_mul (m := 10 ^ 9) Nat.one_pos (by decide)
  rw [Nat.mul_one] at h
  rw [Json.Number.powerOfTen, h]
  norm_num

/-- A decimal whose power of ten is beyond the bound is next to nothing. -/
private theorem value_lt_of_small {d : Decimal}
    (h : d.exponent + (digitsOf d.digits).length < -(2 : Int) ^ binary64.exponentBits) :
    d.value < 1 / 10 ^ 11 := by
  have hbits : (2 : Int) ^ binary64.exponentBits = 2048 := rfl
  calc d.value < 10 ^ ((digitsOf d.digits).length + d.exponent) := d.value_lt
    _ ≤ (10 : ℚ) ^ (-11 : Int) := zpow_le_zpow_right₀ (by norm_num) (by omega)
    _ = 1 / 10 ^ 11 := by norm_num

/-- The double that a decimal is rounded to: never more than twice the decimal, and close to it
unless it is tiny. -/
private theorem value_ofDecimal {d : Decimal} {y : Finite binary64}
    (h : Binary.ofDecimal binary64 false d = .finite y) :
    binary64.value y.rank ≤ 2 * d.value ∧
      (1 / 10 ^ 11 ≤ d.value → Within (1 / 2 ^ 53) d.value (binary64.value y.rank)) := by
  have hvalue := d.value_nonneg
  -- The rank that is rounded to is that of the double.
  have hrank : ∀ {rank}, Binary.ofRank binary64 false rank = .finite y →
      binary64.value rank = binary64.value y.rank := by
    intro rank hrank
    unfold Binary.ofRank at hrank
    split at hrank <;> cases hrank
    rfl
  unfold Binary.ofDecimal at h
  dsimp only at h
  split_ifs at h with hdigits hlarge hsmall
  -- A decimal without digits is zero.
  · have hzero : d.value = 0 := by rw [Decimal.value, hdigits, Nat.cast_zero, zero_mul]
    rw [← hrank h, hzero, Json.Number.value_zero]
    norm_num
  -- A decimal that is too small for its digits to be read is rounded to zero.
  · rw [← hrank h, Json.Number.value_zero]
    exact ⟨by linarith, fun hle => absurd (value_lt_of_small hsmall) (not_lt.2 hle)⟩
  -- Otherwise the quotient is rounded once.
  · rw [← hrank h, ← d.ratio_eq]
    exact ⟨binary64.value_nearest_le_double _ d.ratio_pos, fun hle =>
      Json.Number.within_rounded d.ratio_pos (isNormal_of_le d.ratio_pos hle)⟩

/-- The product of a double with a billion, rounded to a double: never more than four times what it
should be, and close to it unless that is tiny. -/
private theorem value_scaled {v y : ℚ} {num den : Nat} (hden : 0 < den)
    (hquotient : (num : ℚ) / den = y * 10 ^ 9) (hdouble : y ≤ 2 * v)
    (hclose : 1 / 10 ^ 11 ≤ v → Within (1 / 2 ^ 53) v y) :
    binary64.value (binary64.nearest num den) ≤ 4 * (v * 10 ^ 9) ∧
      (1 / 10 ≤ v * 10 ^ 9 →
        |binary64.value (binary64.nearest num den) - v * 10 ^ 9| ≤ 1 / 2 ^ 51 * (v * 10 ^ 9)) := by
  constructor
  -- Rounding at most doubles, so twice it is four times.
  · have hle := binary64.value_nearest_le_double num hden
    rw [hquotient] at hle
    linarith
  · intro hlarge
    -- The first rounding is close because the fraction is not tiny, and so is the second one.
    have hscaled := (hclose (by norm_num at hlarge ⊢; linarith)).mul_const (c := 10 ^ 9)
      (by positivity)
    have hnormal : binary64.IsNormal num den := by
      apply isNormal_of_le hden
      rw [hquotient]
      have := hscaled.1
      norm_num at this hlarge ⊢
      linarith
    have hproduct := Json.Number.within_rounded hden hnormal
    rw [hquotient] at hproduct
    refine (hscaled.trans (by positivity) (by norm_num) (by norm_num) (by norm_num)
      hproduct).abs_sub_le.trans ?_
    rw [mul_comm]
    exact mul_le_mul_of_nonneg_right (by norm_num) (by positivity)

/-- The nanoseconds of a double that a fraction was rounded to are nearest to the fraction, up to
the share that both roundings take. -/
private theorem isNanos_nanosOf {v : ℚ} {y : Finite binary64} (hv : 0 ≤ v)
    (hdouble : binary64.value y.rank ≤ 2 * v)
    (hclose : 1 / 10 ^ 11 ≤ v → Within (1 / 2 ^ 53) v (binary64.value y.rank)) :
    IsNanos (1 / 2 ^ 51) v (nanosOf (.finite y)) := by
  -- The product of the doubles is a quotient of units.
  have hquotient := Json.Number.value_product y.rank (Json.Number.powerOfTen 9)
  rw [value_giga] at hquotient
  have hgiga : Json.Number.powerOfTen 9 = binary64.nearest 1000000000 1 := rfl
  unfold nanosOf
  simp only [Finite.units, ← hgiga]
  generalize binary64.units y.rank * binary64.units (Json.Number.powerOfTen 9) = num at *
  have hden : 0 < 2 ^ (2 * binary64.scale) := Nat.two_pow_pos _
  generalize 2 ^ (2 * binary64.scale) = den at *
  -- The product is rounded again, to a rank that may be that of infinity.
  split_ifs with hrank
  case neg =>
    -- A product beyond the doubles is far beyond a second.
    rw [BinaryFormat.nearest_lt_infinityRank_iff (by decide) hden, hquotient, not_lt] at hrank
    have hpow : (2 : ℚ) ^ 40 ≤ 2 ^ (2 ^ (binary64.exponentBits - 1) - 1) :=
      pow_le_pow_right₀ (by norm_num) (by decide)
    have hlarge := (hpow.trans BinaryFormat.pow_le_overflowThreshold).trans hrank
    apply isNanos_greatest (by positivity)
    norm_num at hlarge
    linarith
  obtain ⟨hfour, hshare⟩ := value_scaled hden hquotient hdouble hclose
  -- The last rounding, to a whole number, is off by at most one half.
  have hround := abs_roundHalfUp_sub_le (binary64.units (binary64.nearest num den))
    (Nat.two_pow_pos binary64.scale)
  have hunits : (binary64.units (binary64.nearest num den) : ℚ) / (2 ^ binary64.scale : Nat) =
      binary64.value (binary64.nearest num den) := by
    rw [BinaryFormat.value]
    push_cast
    rfl
  rw [hunits] at hround
  by_cases htiny : v * 10 ^ 9 < 1 / 10
  · -- The shares mean nothing to a double below the full mantissas, but it rounds to nothing.
    have hzero :
        roundHalfUp (binary64.units (binary64.nearest num den)) (2 ^ binary64.scale) = 0 := by
      generalize roundHalfUp _ _ = k at *
      have hlt : (k : ℚ) < 1 := by linarith [(abs_le.1 hround).2]
      exact Nat.lt_one_iff.1 (by exact_mod_cast hlt)
    rw [hzero, Nat.zero_min]
    exact isNanos_zero (by positivity) hv (by linarith)
  -- Otherwise the error of the doubles and the half of the last rounding are added.
  · refine ⟨_, ?_, rfl⟩
    have htotal := (abs_add_le _ _).trans (add_le_add hround (hshare (not_lt.1 htiny)))
    rwa [sub_add_sub_cancel] at htotal

/-- The nanoseconds of a fraction are the nearest ones, up to the share that two roundings to
doubles take. -/
theorem nanosOf_ofDecimal (d : Decimal) :
    IsNanos (1 / 2 ^ 51) d.value (nanosOf (Binary.ofDecimal binary64 false d)) := by
  -- A decimal beyond the doubles is an infinity, which gives the greatest nanoseconds.
  by_cases hfinite : (Binary.ofDecimal binary64 false d).IsFinite
  · obtain ⟨y, hy⟩ := hfinite
    obtain ⟨hdouble, hclose⟩ := value_ofDecimal hy
    rw [hy]
    exact isNanos_nanosOf d.value_nonneg hdouble hclose
  -- No double is left to multiply.
  · have hthreshold := mt (Binary.isFinite_ofDecimal (by decide) false d).2 hfinite
    have hone := BinaryFormat.one_le_overflowThreshold (f := binary64)
    have hnanos : nanosOf (Binary.ofDecimal binary64 false d) = greatestNanos := by
      unfold nanosOf
      split
      case h_1 y hy => exact absurd ⟨y, hy⟩ hfinite
      case h_2 => rfl
    rw [hnanos]
    exact isNanos_greatest (by positivity) (hone.trans (not_lt.1 hthreshold))

/-- The share of two roundings does not show in a fraction of at most fifteen digits: what is
nearest to it up to the share is nearest to it. -/
theorem IsNanos.nearest {m k n : Nat} (hm : m < 10 ^ k) (hk : k ≤ 15)
    (h : IsNanos (1 / 2 ^ 51) (m / 10 ^ k) n) : IsNanos 0 (m / 10 ^ k) n := by
  obtain ⟨i, hi, rfl⟩ := h
  refine ⟨i, ?_, rfl⟩
  -- In units of a femtosecond the fraction is whole.
  obtain ⟨j, hj⟩ := Nat.exists_eq_add_of_le hk
  have hscaled : (m : ℚ) / 10 ^ k * 10 ^ 9 = (m * 10 ^ j : Nat) / 10 ^ 6 := by
    have hpow : (10 : ℚ) ^ 15 = 10 ^ k * 10 ^ j := by rw [hj, pow_add]
    push_cast
    rw [div_mul_eq_mul_div, div_eq_div_iff (by positivity) (by positivity), mul_assoc, mul_assoc,
      mul_comm (10 ^ j) _, ← hpow]
    norm_num
  have hlt : m * 10 ^ j < 10 ^ 15 := by
    rw [hj, pow_add]
    exact Nat.mul_lt_mul_of_pos_right hm (Nat.pow_pos (by decide))
  rw [hscaled] at hi ⊢
  generalize m * 10 ^ j = x at *
  -- The slack that the share leaves is less than one femtosecond.
  have hslack : 1 / 2 ^ 51 * ((x : ℚ) / 10 ^ 6) < 1 / 10 ^ 6 := by
    have hlt' : (x : ℚ) ≤ 10 ^ 15 := by exact_mod_cast hlt.le
    calc 1 / 2 ^ 51 * ((x : ℚ) / 10 ^ 6) ≤ 1 / 2 ^ 51 * (10 ^ 15 / 10 ^ 6) := by gcongr
      _ < 1 / 10 ^ 6 := by norm_num
  have hclose : |(10 ^ 6 * i - x : ℚ)| < 5 * 10 ^ 5 + 1 := by
    have hmul : (10 ^ 6 * i - x : ℚ) = 10 ^ 6 * (i - x / 10 ^ 6) := by ring
    rw [hmul, abs_mul, abs_of_pos (by positivity)]
    linarith
  -- Between whole numbers the strict bound leaves only the half itself.
  have hint : |(10 ^ 6 * i - x : ℤ)| < 5 * 10 ^ 5 + 1 := by exact_mod_cast hclose
  have hnearest : |(10 ^ 6 * i - x : ℚ)| ≤ 5 * 10 ^ 5 := by exact_mod_cast Int.lt_add_one_iff.1 hint
  have hdiv : (i - x / 10 ^ 6 : ℚ) = (10 ^ 6 * i - x) / 10 ^ 6 := by ring
  rw [hdiv, abs_div, abs_of_pos (show (0 : ℚ) < 10 ^ 6 by norm_num), zero_mul, add_zero,
    div_le_iff₀ (by norm_num)]
  exact hnearest.trans (by norm_num)

/-! ### Reading -/

/-- Digits, at least one, and the number that they denote. -/
structure Denotes (ds : List Char) (n : Nat) : Prop where
  ne_nil : ds ≠ []
  isDigit : ∀ c ∈ ds, IsDigit c
  ofDigits_eq : ofDigits (ds.map digitValue) = n

/-- A field of a date or a time: digits, which may have a plus sign in front of them. -/
def IsField (cs : List Char) (n : Nat) : Prop := ∃ ds, Denotes ds n ∧ (cs = ds ∨ cs = '+' :: ds)

/-- What may stand behind the digits of a fraction: nothing, or an exponent. -/
inductive IsExponent : List Char → Int → Prop where
  | none : IsExponent [] 0
  | mark {c : Char} {below : Bool} {sign ds : List Char} {n : Nat} (hc : c = 'e' ∨ c = 'E')
      (hsign : Json.Digits.SignText below sign) (hds : Denotes ds n) :
      IsExponent (c :: (sign ++ ds)) (if below then -(n : Int) else n)

/-- Characters are read as a number exactly if they are digits that denote it. -/
private theorem ofDigits?_eq_some_iff {ds : List Char} {n : Nat} :
    Numeral.readNat?.ofDigits? ds = some n ↔ Denotes ds n := by
  unfold Numeral.readNat?.ofDigits?
  by_cases hne : ds = []
  · rw [hne]
    exact iff_of_false nofun fun h => h.ne_nil rfl
  · rw [if_neg (by simpa using hne), Option.map_eq_some_iff]
    constructor
    · rintro ⟨vs, hvs, rfl⟩
      obtain ⟨hds, rfl⟩ := digitValues?_eq_some_iff.1 hvs
      exact ⟨hne, hds, rfl⟩
    · rintro ⟨-, hds, rfl⟩
      exact ⟨_, digitValues?_of_isDigit hds, rfl⟩

/-- A field is read as the number that its digits denote. -/
theorem readNat?_eq_some_iff {cs : List Char} {n : Nat} :
    Numeral.readNat? cs = some n ↔ IsField cs n := by
  -- A plus sign in front may be left out.
  unfold Numeral.readNat?
  split
  case h_1 ds =>
    rw [ofDigits?_eq_some_iff]
    refine ⟨fun h => ⟨ds, h, Or.inr rfl⟩, ?_⟩
    rintro ⟨ds', h, rfl | heq⟩
    · exact absurd (h.isDigit '+' List.mem_cons_self) (by decide)
    · rwa [(List.cons.inj heq).2]
  case h_2 hplus =>
    rw [ofDigits?_eq_some_iff]
    refine ⟨fun h => ⟨cs, h, Or.inl rfl⟩, ?_⟩
    rintro ⟨ds, h, rfl | rfl⟩
    · exact h
    · exact absurd rfl (hplus ds)

/-- What denotes a number are the digits as they were written, last one first. -/
private theorem Denotes.written {ds : List Char} {n : Nat} (h : Denotes ds n) :
    Json.Digits.Written (ds.map digitValue).reverse ds :=
  ⟨h.isDigit, List.reverse_reverse _⟩

/-- A sign and digits are read as the integer that they denote. -/
private theorem readInt?_eq_some_iff {cs : List Char} {i : Int} :
    Numeral.readInt? (String.ofList cs) = some i ↔
      ∃ below sign ds n, Json.Digits.SignText below sign ∧ Denotes ds n ∧ cs = sign ++ ds ∧
        i = if below then -(n : Int) else n := by
  constructor
  · intro h
    have hsplit : ∃ sign, Json.Digits.SignText (Numeral.splitSign cs).1 sign ∧
        cs = sign ++ (Numeral.splitSign cs).2 := by
      unfold Numeral.splitSign
      split
      · exact ⟨_, .plus, rfl⟩
      · exact ⟨_, .minus, rfl⟩
      · exact ⟨_, .none, rfl⟩
    obtain ⟨sign, hsign, hcs⟩ := hsplit
    unfold Numeral.readInt? at h
    rw [String.toList_ofList] at h
    -- Only the two halves of the split matter from here on.
    generalize Numeral.splitSign cs = split at *
    obtain ⟨below, ds⟩ := split
    dsimp only at *
    split at h
    case isTrue => cases h
    case isFalse hne =>
      obtain ⟨vs, hvs, hi⟩ := Option.bind_eq_some_iff.1 h
      obtain ⟨hds, rfl⟩ := digitValues?_eq_some_iff.1 hvs
      exact ⟨below, sign, ds, _, hsign, ⟨by simpa using hne, hds, rfl⟩, hcs,
        (Option.some.inj hi).symm⟩
  · rintro ⟨below, sign, ds, n, hsign, hds, rfl, rfl⟩
    have hne : (ds.map digitValue).reverse ≠ [] := by simpa using hds.ne_nil
    -- Conversely a sign and digits are read as they are.
    rw [Json.Digits.readInt?_exponent hsign hds.written hne, List.reverse_reverse, hds.ofDigits_eq]

/-- Whether no exponent begins at a character. -/
def noMark (c : Char) : Bool := c ≠ 'e' ∧ c ≠ 'E'

/-- The exponent that stands behind the digits of a fraction. -/
def readExponent? : List Char → Option Int
  | [] => some 0
  | _ :: cs => Numeral.readInt? (String.ofList cs)

/-- What begins with an exponent mark is read as an exponent exactly if it has the form of one. -/
private theorem readExponent?_eq_some_iff {cs : List Char} {e : Int}
    (h : ∀ c ∈ cs.head?, noMark c = false) :
    readExponent? cs = some e ↔ IsExponent cs e := by
  cases cs with
  | nil =>
    constructor
    · rintro ⟨⟩
      exact .none
    · rintro ⟨⟩
      rfl
  | cons c cs =>
    -- What is not free of a mark begins with one of the two letters.
    have hc : c = 'e' ∨ c = 'E' := by
      have := h c rfl
      simp only [noMark, decide_eq_false_iff_not] at this
      tauto
    rw [readExponent?, readInt?_eq_some_iff]
    constructor
    · rintro ⟨below, sign, ds, n, hsign, hds, rfl, rfl⟩
      exact .mark hc hsign hds
    · intro h
      cases h with
      | mark _ hsign hds => exact ⟨_, _, _, _, hsign, hds, rfl, rfl⟩

/-- The double of a text that begins with `0.` is that of its digits up to an exponent. -/
private theorem ofText?_fraction {front rest : List Char} (hfront : ∀ c ∈ front, noMark c = true)
    (hrest : ∀ c ∈ rest.head?, noMark c = false) :
    Binary.ofText? binary64 (String.ofList ('0' :: '.' :: (front ++ rest))) =
      (digitValues? front).bind fun vs => (readExponent? rest).map fun e =>
        Binary.ofDecimal binary64 false ⟨ofDigits vs, e - vs.length⟩ := by
  have hsign : Numeral.splitSign ('0' :: '.' :: (front ++ rest)) =
      (false, '0' :: '.' :: (front ++ rest)) := rfl
  -- The whole front up to the exponent has no mark, so the split is known.
  have hwhole : ∀ c ∈ '0' :: '.' :: front, noMark c = true :=
    List.forall_mem_cons.2 ⟨by decide, List.forall_mem_cons.2 ⟨by decide, hfront⟩⟩
  have hexponent : Numeral.splitExponent ('0' :: '.' :: (front ++ rest)) =
      ('0' :: '.' :: front, rest.tail?) := by
    have hspan := List.span_append hwhole rest hrest
    unfold noMark at hspan
    rw [Numeral.splitExponent, ← List.cons_append, ← List.cons_append, hspan]
  have hpoint : Numeral.splitPoint ('0' :: '.' :: front) = (['0'], front) :=
    Json.Digits.splitPoint_append (w := ['0']) (by simp [isDigit_zero]) front
  have hzero : digitValues? ['0'] = some [0] := rfl
  -- The parts of the split are read as one numeral.
  have hread : Numeral.read? ('0' :: '.' :: (front ++ rest)) =
      (digitValues? front).bind fun vs =>
        (rest.tail?.elim (some none) fun cs => (Numeral.readInt? (String.ofList cs)).map some).bind
          fun e => some ⟨false, [0], vs, e⟩ := by
    simp only [Numeral.read?, hsign, hexponent, hpoint, hzero, Option.bind_eq_bind,
      Option.bind_some, List.isEmpty_cons, Bool.false_eq_true, false_and, if_false]
    cases rest.tail? <;> rfl
  unfold Binary.ofText?
  rw [String.toList_ofList, hsign]
  dsimp only
  split
  case h_4 =>
    rw [hread, Option.map_bind]
    congr 1
    funext vs
    -- With nothing behind the front there is no exponent to read.
    cases rest with
    | nil => rfl
    | cons c cs =>
      simp only [List.tail?_cons, readExponent?, Option.elim_some]
      cases Numeral.readInt? (String.ofList cs) <;> rfl
  -- A name does not begin with a digit.
  all_goals
    rename_i hname
    have hchars := congrArg String.toList hname
    rw [String.toList_ofList, List.map_cons] at hchars
    exact absurd (List.cons.inj hchars).1 (by decide)

/-- What is read behind the point of a second: digits and perhaps an exponent. -/
theorem readFraction?_eq_some_iff {cs : List Char} {n : Nat} :
    readFraction? cs = some n ↔
      ∃ ds exponent e, cs = ds ++ exponent ∧ (∀ c ∈ ds, IsDigit c) ∧ IsExponent exponent e ∧
        n = nanosOf (Binary.ofDecimal binary64 false
          ⟨ofDigits (ds.map digitValue), e - ds.length⟩) := by
  constructor
  · intro h
    -- What stands in front of the first exponent mark is read as digits.
    have hsplit := List.takeWhile_append_dropWhile (p := noMark) (l := cs)
    have hfront : ∀ c ∈ cs.takeWhile noMark, noMark c = true := fun c hc =>
      List.mem_takeWhile_imp hc
    have hrest : ∀ c ∈ (cs.dropWhile noMark).head?, noMark c = false := fun c hc => by
      have := List.head?_dropWhile_not noMark cs
      rw [Option.mem_def.1 hc] at this
      simpa using this
    -- Each of the three readings that make up the fraction has succeeded.
    rw [readFraction?, ← hsplit, ofText?_fraction hfront hrest, Option.map_eq_some_iff] at h
    obtain ⟨x, hx, rfl⟩ := h
    obtain ⟨vs, hvs, hx⟩ := Option.bind_eq_some_iff.1 hx
    obtain ⟨e, he, rfl⟩ := Option.map_eq_some_iff.1 hx
    obtain ⟨hds, rfl⟩ := digitValues?_eq_some_iff.1 hvs
    refine ⟨_, _, e, hsplit.symm, hds, (readExponent?_eq_some_iff hrest).1 he, ?_⟩
    rw [List.length_map]
  · rintro ⟨ds, exponent, e, rfl, hds, hexponent, rfl⟩
    -- Conversely the digits end at the first mark.
    have hfront : ∀ c ∈ ds, noMark c = true := fun c hc => by
      simpa [noMark] using ⟨(hds c hc).ne (by decide), (hds c hc).ne (by decide)⟩
    have hrest : ∀ c ∈ exponent.head?, noMark c = false := by
      cases hexponent with
      | none => simp
      | mark hc => rcases hc with rfl | rfl <;> simp [noMark]
    rw [readFraction?, ofText?_fraction hfront hrest, digitValues?_of_isDigit hds, Option.bind_some,
      (readExponent?_eq_some_iff hrest).2 hexponent, List.length_map]
    rfl

end GraphCodec.Calendar.Timestamp
