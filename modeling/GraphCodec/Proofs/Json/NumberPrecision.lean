import Mathlib
import GraphCodec.Proofs.Binary.Precision
import GraphCodec.Proofs.Json.NumberRange

/-!
# How exactly a numeral is read

`Decimal.value` and `Numeral.value` are the rational numbers that decimals and numerals denote.

A numeral without a fraction and an exponent is read as the integer that it denotes.  Any other is
read as a double, through three roundings, so the double is off by up to a share of `7 / 2 ^ 54`
(`within_scaled`).
-/

namespace GraphCodec

/-- The number that a decimal is. -/
def Decimal.value (d : Decimal) : ℚ := d.digits * 10 ^ d.exponent

/-- A decimal denotes no negative number. -/
theorem Decimal.value_nonneg (d : Decimal) : 0 ≤ d.value := by
  unfold value
  positivity

/-- The number that a numeral denotes. -/
def Numeral.value (n : Numeral) : ℚ :=
  if n.negative then -n.magnitude.value else n.magnitude.value

/-- The magnitude of an integer numeral is what its digits denote. -/
theorem Numeral.magnitude_of_isInteger {n : Numeral} (h : n.isInteger = true) :
    n.magnitude = ⟨Decimal.ofDigits n.whole, 0⟩ := by
  simp only [isInteger, Bool.and_eq_true, List.isEmpty_iff, Option.isNone_iff_eq_none] at h
  simp [magnitude, h.1, h.2]

namespace Json.Number

open Decimal

/-- The doubles of one binade are apart by a share of `1 / 2 ^ 53` at least. -/
private theorem two_mul_binadeSize : (2 * (binary64.binadeSize : ℚ)) = 2 ^ 53 := by
  norm_num [BinaryFormat.binadeSize, binary64]

/-! ### One rounding -/

/-- The product of two doubles before it is rounded. -/
theorem value_product (a b : Nat) :
    ((binary64.units a * binary64.units b : Nat) : ℚ) / (2 ^ (2 * binary64.scale) : Nat) =
      binary64.value a * binary64.value b := by
  unfold BinaryFormat.value
  push_cast
  rw [Nat.mul_comm 2, pow_mul]
  field_simp

/-- The quotient of two doubles before it is rounded. -/
theorem value_quotient (a b : Nat) :
    (binary64.units a : ℚ) / binary64.units b = binary64.value a / binary64.value b := by
  have hS : (2 ^ binary64.scale : ℚ) ≠ 0 := by positivity
  unfold BinaryFormat.value
  rw [div_div_div_cancel_right₀ hS]

/-- A quotient that is rounded to a double is kept up to a share of `1 / 2 ^ 53`. -/
theorem within_rounded {num den : Nat} (hden : 0 < den) (h : binary64.IsNormal num den) :
    Within (1 / 2 ^ 53) (num / den) (binary64.value (binary64.nearest num den)) := by
  rw [← two_mul_binadeSize]
  exact binary64.within_nearest num hden h

/-- A whole number is rounded up to a share of `1 / 2 ^ 53`. -/
theorem within_whole (n : Nat) :
    Within (1 / 2 ^ 53) n (binary64.value (binary64.nearest n 1)) := by
  have h := within_rounded Nat.one_pos (binary64.isNormal_one n)
  rwa [Nat.cast_one, div_one] at h

/-- So is a power of ten. -/
private theorem within_powerOfTen (k : Nat) :
    Within (1 / 2 ^ 53) (10 ^ k) (binary64.value (powerOfTen k)) := by
  have h := within_whole (10 ^ k)
  rwa [Nat.cast_pow, Nat.cast_ofNat] at h

/-! ### Scaling -/

/-- The double that a significand and a power of ten make. -/
theorem of_scaled {negative : Bool} {sig : Nat} {e : Int} {x : Finite binary64}
    (h : scaled? negative sig e = some x) : x.negative = negative ∧
      if 0 ≤ e then multiplyByPower? (binary64.nearest sig 1) e.toNat = some (x.rank : Nat)
      else divideByPower (binary64.nearest sig 1) (-e).toNat = x.rank := by
  -- The rank is below that of infinity.
  have hfinite : ∀ rank, (if h : rank < binary64.infinityRank
      then some (⟨negative, ⟨rank, h⟩⟩ : Finite binary64) else none) = some x →
      x.negative = negative ∧ rank = x.rank := by
    intro rank hx
    split at hx
    case isTrue => cases hx; exact ⟨rfl, rfl⟩
    case isFalse => cases hx
  unfold scaled? at h
  split at h
  case isTrue he =>
    obtain ⟨rank, hrank, hx⟩ := Option.bind_eq_some_iff.1 h
    obtain ⟨hneg, rfl⟩ := hfinite rank hx
    exact ⟨hneg, by rw [if_pos he, hrank]⟩
  case isFalse he =>
    obtain ⟨hneg, hrank⟩ := hfinite _ h
    exact ⟨hneg, by rw [if_neg he, hrank]⟩

/-- The start of the scaling is at least one. -/
theorem le_units_nearest {sig : Nat} (hsig : 0 < sig) :
    2 ^ binary64.scale ≤ binary64.units (binary64.nearest sig 1) := by
  apply binary64.pow_le_units_nearest _ Nat.one_pos
  exact Nat.mul_le_mul_right _ hsig

theorem value_zero : binary64.value 0 = 0 := by simp [BinaryFormat.value]

theorem units_powerOfTen_pos (k : Nat) : 0 < binary64.units (powerOfTen k) :=
  Nat.lt_of_lt_of_le (Nat.two_pow_pos _) (le_units_powerOfTen k)

/-- A significand that is scaled up has a full mantissa. -/
private theorem isNormal_product (sig k : Nat) :
    binary64.IsNormal (binary64.units (binary64.nearest sig 1) * binary64.units (powerOfTen k))
      (2 ^ (2 * binary64.scale)) := by
  -- Zero needs no mantissa, and any other significand is at least one unit.
  by_cases h0 : sig = 0
  · left
    simp [h0]
  have hstart := le_units_nearest (Nat.pos_of_ne_zero h0)
  have hpower := le_units_powerOfTen k
  have hsize := binary64.binadeSize_le_scale
  right
  rw [Nat.mul_comm 2, Nat.pow_mul, Nat.pow_two]
  generalize binary64.units (binary64.nearest sig 1) = a at *
  generalize binary64.units (powerOfTen k) = b at *
  generalize 2 ^ binary64.scale = S at *
  calc binary64.binadeSize * (S * S) ≤ S * (a * b) :=
        Nat.mul_le_mul hsize (Nat.mul_le_mul hstart hpower)
    _ = a * b * S := by ring

/-- The powers of ten that a significand can be divided by before its mantissa suffers. -/
private theorem units_powerOfTen_le {k : Nat} (hk : k ≤ 307) :
    binary64.binadeSize * binary64.units (powerOfTen k) ≤
      2 ^ binary64.scale * 2 ^ binary64.scale := by
  have hround := binary64.units_nearest_le (10 ^ k) Nat.one_pos (Or.inr rfl)
  have hpow := Nat.pow_le_pow_right (n := 10) (by decide) hk
  rw [← powerOfTen, Nat.one_mul] at hround
  calc binary64.binadeSize * binary64.units (powerOfTen k)
      ≤ binary64.units (powerOfTen k) * (2 * binary64.binadeSize) := by
        rw [Nat.mul_comm]
        exact Nat.mul_le_mul_left _ (Nat.le_mul_of_pos_left _ Nat.two_pos)
    _ ≤ 10 ^ k * 2 ^ binary64.scale * (2 * binary64.binadeSize + 1) := hround
    _ ≤ 10 ^ 307 * 2 ^ binary64.scale * (2 * binary64.binadeSize + 1) :=
        Nat.mul_le_mul_right _ (Nat.mul_le_mul_right _ hpow)
    _ ≤ 2 ^ binary64.scale * 2 ^ binary64.scale := by decide +kernel

/-- A significand that is scaled down has a full mantissa, unless the power is extreme. -/
theorem isNormal_quotient (sig : Nat) {k : Nat} (hk : k ≤ 307) :
    binary64.IsNormal (binary64.units (binary64.nearest sig 1))
      (binary64.units (powerOfTen k)) := by
  by_cases h0 : sig = 0
  · left
    simp [h0]
  have hstart := le_units_nearest (Nat.pos_of_ne_zero h0)
  right
  exact (units_powerOfTen_le hk).trans (Nat.mul_le_mul_right _ hstart)

/-- A significand that is rounded to zero is zero. -/
theorem eq_zero_of_nearest {sig : Nat} (h : binary64.nearest sig 1 = 0) : sig = 0 := by
  by_contra hne
  have hstart := le_units_nearest (Nat.pos_of_ne_zero hne)
  rw [h, binary64.units_zero] at hstart
  exact absurd hstart (Nat.not_le_of_lt (Nat.two_pow_pos _))

/-- A significand times a power of ten is read up to a share of `7 / 2 ^ 54`. -/
theorem within_scaled {negative : Bool} {sig : Nat} {e : Int} {x : Finite binary64}
    (he : -307 ≤ e) (h : scaled? negative sig e = some x) :
    Within (7 / 2 ^ 54) (sig * 10 ^ e) (binary64.value x.rank) := by
  obtain ⟨-, hrank⟩ := of_scaled h
  have hstart := within_whole sig
  have hsig : (0 : ℚ) ≤ sig := Nat.cast_nonneg sig
  by_cases he0 : 0 ≤ e
  -- Scaled up, unless the significand is zero.
  · obtain ⟨k, rfl⟩ := Int.eq_ofNat_of_zero_le he0
    rw [if_pos he0, Int.toNat_natCast] at hrank
    unfold multiplyByPower? at hrank
    by_cases h0 : binary64.nearest sig 1 = 0
    · rw [if_pos h0] at hrank
      rw [← Option.some.inj hrank, value_zero, eq_zero_of_nearest h0]
      simp [Within]
    · rw [if_neg h0] at hrank
      split at hrank
      case isTrue => cases hrank
      case isFalse =>
        -- Three roundings: of the significand, of the power and of their product.
        have hproduct := within_rounded (Nat.two_pow_pos _) (isNormal_product sig k)
        rw [value_product, Option.some.inj hrank] at hproduct
        have hboth := hstart.mul hsig (by positivity) (by norm_num) (by norm_num) (by norm_num)
          (by norm_num) (within_powerOfTen k)
        rw [zpow_natCast]
        apply (hboth.trans (by positivity) (by norm_num) (by norm_num) (by norm_num) hproduct).mono
        · positivity
        · norm_num
  · obtain ⟨k, rfl⟩ : ∃ k : Nat, e = -k := ⟨(-e).toNat, by omega⟩
    rw [if_neg he0, neg_neg, Int.toNat_natCast, divideByPower, if_pos (by omega)] at hrank
    -- The same three, with a quotient.
    have hquotient := within_rounded (units_powerOfTen_pos k) (isNormal_quotient sig (by omega))
    rw [value_quotient, hrank] at hquotient
    have hboth := hstart.div hsig (by positivity) (by norm_num) (by norm_num) (by norm_num)
      (by norm_num) (within_powerOfTen k)
    rw [zpow_neg, zpow_natCast, ← div_eq_mul_inv]
    apply (hboth.trans (by positivity) (by norm_num) (by norm_num) (by norm_num) hquotient).mono
    · positivity
    · norm_num

/-! ### Tiny numbers -/

/-- Rounding at most doubles a quotient of doubles. -/
theorem value_quotient_le {a b : Nat} (hb : 0 < binary64.units b) :
    binary64.value (binary64.nearest (binary64.units a) (binary64.units b)) ≤
      2 * (binary64.value a / binary64.value b) := by
  have h := binary64.units_nearest_le_double (binary64.units a) hb
  have hb' : (0 : ℚ) < binary64.units b := by exact_mod_cast hb
  rw [← value_quotient]
  unfold BinaryFormat.value
  rw [div_le_iff₀ (by positivity), mul_div_assoc', div_mul_eq_mul_div, le_div_iff₀ hb']
  have h' : (binary64.units b : ℚ) *
      binary64.units (binary64.nearest (binary64.units a) (binary64.units b)) ≤
        2 * (binary64.units a * 2 ^ binary64.scale) := by exact_mod_cast h
  linarith

/-- A power of ten is at least one when it is rounded. -/
private theorem one_le_powerOfTen (k : Nat) : 1 ≤ binary64.value (powerOfTen k) := by
  have h := le_units_powerOfTen k
  unfold BinaryFormat.value
  rw [le_div_iff₀ (by positivity), one_mul]
  exact_mod_cast h

/-- The largest power of ten is large, rounded or not. -/
theorem le_greatest_power : (10 ^ 200 : ℚ) ≤ binary64.value (powerOfTen 308) := by
  calc (10 ^ 200 : ℚ) ≤ 10 ^ 200 * (10 ^ 108 * (1 - 1 / 2 ^ 53)) :=
        le_mul_of_one_le_right (by positivity) (by norm_num)
    _ = 10 ^ 308 * (1 - 1 / 2 ^ 53) := by rw [← mul_assoc, ← pow_add]
    _ ≤ binary64.value (powerOfTen 308) := (within_powerOfTen 308).1

/-- Dividing by powers of ten at most doubles a number. -/
private theorem value_divideByPower_le (rank exponent : Nat) :
    binary64.value (divideByPower rank exponent) ≤ 2 * binary64.value rank := by
  induction rank, exponent using divideByPower.induct with
  -- One division is enough, nothing is left to divide, or a division by the largest power comes
  -- first.
  | case1 rank exponent he =>
    rw [divideByPower, if_pos he]
    apply (value_quotient_le (units_powerOfTen_pos exponent)).trans
    apply mul_le_mul_of_nonneg_left _ (by norm_num)
    exact div_le_self (binary64.value_nonneg rank) (one_le_powerOfTen exponent)
  | case2 exponent he =>
    rw [divideByPower, if_neg he, if_pos rfl, value_zero, mul_zero]
  | case3 rank exponent he hrank ih =>
    rw [divideByPower, if_neg he, if_neg hrank]
    -- That division at least halves the number, which makes up for the doubling that follows.
    have hstep := value_quotient_le (a := rank) (units_powerOfTen_pos 308)
    have hsmall : binary64.value rank / binary64.value (powerOfTen 308) ≤
        binary64.value rank / 2 :=
      div_le_div_of_nonneg_left (binary64.value_nonneg rank) (by norm_num)
        (le_trans (by norm_num) le_greatest_power)
    linarith

/-- A significand of 64 bits that is scaled down by an extreme power is less than one. -/
theorem scaled_lt_one {negative : Bool} {sig : Nat} {e : Int} {x : Finite binary64}
    (hsig : sig < 2 ^ 64) (he : e < -307) (h : scaled? negative sig e = some x) :
    binary64.value x.rank < 1 := by
  obtain ⟨-, hrank⟩ := of_scaled h
  rw [if_neg (by omega)] at hrank
  have hstart : binary64.value (binary64.nearest sig 1) ≤ 2 ^ 65 := by
    have hsig' : (sig : ℚ) ≤ 2 ^ 64 := by exact_mod_cast hsig.le
    have := (within_whole sig).2
    norm_num at this ⊢
    linarith
  -- One division by the largest power is enough.
  have hstep := value_quotient_le (a := binary64.nearest sig 1)
    (units_powerOfTen_pos 308)
  have hsmall : binary64.value (binary64.nearest sig 1) / binary64.value (powerOfTen 308) ≤
      2 ^ 65 / 10 ^ 200 :=
    div_le_div₀ (by positivity) hstart (by positivity) le_greatest_power
  have hnum : (4 : ℚ) * (2 ^ 65 / 10 ^ 200) < 1 := by norm_num
  rw [← hrank, divideByPower]
  -- The exponent is the largest one, or more divisions follow.
  by_cases hk : (-e).toNat ≤ 308
  · have hk308 : (-e).toNat = 308 := by omega
    rw [if_pos hk, hk308]
    linarith [binary64.value_nonneg (binary64.nearest sig 1)]
  · rw [if_neg hk]
    by_cases h0 : binary64.nearest sig 1 = 0
    · rw [if_pos h0, value_zero]
      exact zero_lt_one
    · rw [if_neg h0]
      have hrest := value_divideByPower_le (binary64.nearest
        (binary64.units (binary64.nearest sig 1)) (binary64.units (powerOfTen 308)))
        ((-e).toNat - 308)
      linarith

/-! ### Exact numbers -/

/-- The powers of ten that are doubles. -/
private theorem units_powerOfTen {k : Nat} (hk : k < 23) :
    binary64.units (powerOfTen k) = 10 ^ k * 2 ^ binary64.scale := by
  -- The power of five fits into a mantissa.
  have hfive : 5 ^ k < 2 * binary64.binadeSize :=
    Nat.lt_of_le_of_lt (Nat.pow_le_pow_right (by decide) (Nat.le_of_lt_succ hk)) (by decide)
  have h := binary64.value_nearest_shift k Nat.one_pos hfive
  rw [Nat.mul_one, ← Nat.mul_pow, ← powerOfTen, BinaryFormat.value, div_eq_iff (by positivity)] at h
  have hten : (5 ^ k * 2 ^ k : ℚ) = 10 ^ k := by rw [← mul_pow]; norm_num
  push_cast at h
  rw [hten] at h
  exact_mod_cast h

/-- A significand that is a double is kept as it is. -/
theorem units_nearest_one {sig : Nat} (hsig : sig < 2 ^ 53) :
    binary64.units (binary64.nearest sig 1) = sig * 2 ^ binary64.scale := by
  have h := binary64.value_nearest_mul Nat.one_pos (m := sig)
    (by rw [BinaryFormat.binadeSize]; exact hsig)
  rw [Nat.mul_one, BinaryFormat.value, div_eq_iff (by positivity)] at h
  exact_mod_cast h

/-- A whole product that is a double is read as it is. -/
private theorem value_scaled_up {negative : Bool} {sig k : Nat} {x : Finite binary64}
    (hsig : sig < 2 ^ 53) (hproduct : sig * 10 ^ k < 2 ^ 53)
    (h : scaled? negative sig k = some x) : binary64.value x.rank = sig * 10 ^ k := by
  obtain ⟨-, hrank⟩ := of_scaled h
  rw [if_pos (Int.natCast_nonneg k), Int.toNat_natCast] at hrank
  unfold multiplyByPower? at hrank
  by_cases h0 : binary64.nearest sig 1 = 0
  · rw [if_pos h0] at hrank
    rw [← Option.some.inj hrank, value_zero, eq_zero_of_nearest h0]
    simp
  · have hpos : 0 < sig := Nat.pos_of_ne_zero fun hsig => h0 (by rw [hsig, binary64.nearest_zero])
    -- The powers of ten up to the 22nd are exact, and a greater one makes the product too large.
    have hk : k < 23 := by
      by_contra hk
      have hle : 10 ^ 23 ≤ 10 ^ k := Nat.pow_le_pow_right (by decide) (by omega)
      have : 10 ^ k ≤ sig * 10 ^ k := Nat.le_mul_of_pos_left _ hpos
      omega
    rw [if_neg h0, if_neg (by omega), units_nearest_one hsig, units_powerOfTen hk] at hrank
    have hnum : sig * 2 ^ binary64.scale * (10 ^ k * 2 ^ binary64.scale) =
        sig * 10 ^ k * 2 ^ (2 * binary64.scale) := by
      rw [Nat.mul_comm 2 binary64.scale, Nat.pow_mul]
      ring
    rw [hnum] at hrank
    have hexact := binary64.value_nearest_mul (Nat.two_pow_pos (2 * binary64.scale))
      (m := sig * 10 ^ k) (by rw [BinaryFormat.binadeSize]; exact hproduct)
    rw [Option.some.inj hrank] at hexact
    rw [hexact]
    push_cast
    rfl

/-- A significand over a power of ten that is a double is read as a whole number exactly if it is
one. -/
private theorem value_scaled_down_iff {negative : Bool} {sig k : Nat} {x : Finite binary64}
    {m : Nat} (hsig : sig < 2 ^ 53) (hpos : 0 < k) (hk : k < 23)
    (h : scaled? negative sig (-k) = some x) : binary64.value x.rank = m ↔ sig = m * 10 ^ k := by
  obtain ⟨-, hrank⟩ := of_scaled h
  rw [if_neg (by omega), neg_neg, Int.toNat_natCast, divideByPower, if_pos (by omega),
    units_nearest_one hsig, units_powerOfTen hk] at hrank
  have hden : 0 < 10 ^ k * 2 ^ binary64.scale :=
    Nat.mul_pos (Nat.pow_pos (by decide)) (Nat.two_pow_pos _)
  have hten : (0 : ℚ) < 10 ^ k := by positivity
  constructor
  · intro hm
    have hnormal := isNormal_quotient sig (k := k) (by omega)
    rw [units_nearest_one hsig, units_powerOfTen hk] at hnormal
    have hwithin := (within_rounded hden hnormal).abs_sub_le
    have hquotient : ((sig * 2 ^ binary64.scale : Nat) : ℚ) / (10 ^ k * 2 ^ binary64.scale : Nat) =
        sig / 10 ^ k := by
      push_cast
      field_simp
    rw [hrank, hquotient, hm] at hwithin
    -- The difference of the quotient and a whole number is a multiple of `1 / 10 ^ k`.
    have hlt : |((m * 10 ^ k : Nat) : ℤ) - sig| < 1 := by
      have hsig' : (sig : ℚ) < 2 ^ 53 := by exact_mod_cast hsig
      have hscaled : |(m : ℚ) - sig / 10 ^ k| * 10 ^ k < 1 := by
        calc |(m : ℚ) - sig / 10 ^ k| * 10 ^ k
            ≤ sig / 10 ^ k * (1 / 2 ^ 53) * 10 ^ k := mul_le_mul_of_nonneg_right hwithin hten.le
          _ = sig / 2 ^ 53 := by field_simp
          _ < 1 := by rw [div_lt_one (by positivity)]; exact hsig'
      rw [← abs_of_pos hten, ← abs_mul, sub_mul, abs_of_pos hten, div_mul_cancel₀ _ hten.ne']
        at hscaled
      exact_mod_cast hscaled
    have := Int.abs_lt_one_iff.1 hlt
    omega
  · intro hm
    have hnum : sig * 2 ^ binary64.scale = m * (10 ^ k * 2 ^ binary64.scale) := by
      rw [hm]
      ring
    have hmsig : m ≤ sig := by
      rw [hm]
      exact Nat.le_mul_of_pos_right m (Nat.pow_pos (by decide))
    have hm53 : m < 2 ^ 53 := by omega
    rw [hnum] at hrank
    rw [← hrank]
    exact binary64.value_nearest_mul hden (by rw [BinaryFormat.binadeSize]; exact hm53)

/-- No integer lies between zero and one. -/
private theorem ne_intCast {q : ℚ} (h0 : 0 < q) (h1 : q < 1) (k : ℤ) : q ≠ k := by
  intro h
  rw [h] at h0 h1
  have h0' : 0 < k := by exact_mod_cast h0
  have h1' : k < 1 := by exact_mod_cast h1
  omega

/-- A multiple by a power of ten that is no integer of 53 bits is clearly above `2 ^ 53`, and so is
what it is read as. -/
private theorem ne_of_large_product {sig n : Nat} {k : ℤ} {r : ℚ} (hsig : sig < 2 ^ 53)
    (hk : k ≤ 2 ^ 53) (hproduct : 2 ^ 53 ≤ sig * 10 ^ n)
    (hwithin : Within (7 / 2 ^ 54) (sig * 10 ^ n) r) : r ≠ k ∧ (sig : ℚ) * 10 ^ n ≠ k := by
  -- The product is a multiple of ten.
  -- Zero has no digits that could move, so the product has a factor of ten.
  have hbig : 2 ^ 53 + 8 ≤ sig * 10 ^ n := by
    cases n with
    | zero => omega
    | succ n =>
      have hten : sig * 10 ^ (n + 1) = 10 * (sig * 10 ^ n) := by ring
      omega
  have hbig' : (2 ^ 53 + 8 : ℚ) ≤ sig * 10 ^ n := by exact_mod_cast hbig
  have hk' : (k : ℚ) ≤ 2 ^ 53 := by exact_mod_cast hk
  have hlow := hwithin.1
  -- Both are above the integer.
  constructor
  · intro hr
    norm_num at hbig' hk' hlow
    linarith
  · intro hq
    norm_num at hbig' hk'
    linarith

/-- A significand over a power of ten above it is zero or lies between zero and one, and so does
what it is read as. -/
private theorem eq_iff_of_small_quotient {sig n : Nat} {r : ℚ} (hsig : sig < 2 ^ 53) (hn : 23 ≤ n)
    (hwithin : Within (7 / 2 ^ 54) (sig / 10 ^ n) r) (k : ℤ) :
    r = k ↔ (sig : ℚ) / 10 ^ n = k := by
  -- Zero is zero, whatever it is divided by.
  by_cases hsig0 : sig = 0
  · have hr : r = 0 := by
      simp only [hsig0, Within, Nat.cast_zero, zero_div, zero_mul] at hwithin
      linarith
    rw [hr, hsig0, Nat.cast_zero, zero_div]
  -- Any other quotient lies between zero and one half.
  · have hten : (0 : ℚ) < 10 ^ n := by positivity
    have hsig1 : (1 : ℚ) ≤ sig := by exact_mod_cast Nat.pos_of_ne_zero hsig0
    have hsig2 : (sig : ℚ) ≤ 2 ^ 53 := by exact_mod_cast hsig.le
    have hpow : (10 ^ 23 : ℚ) ≤ 10 ^ n := pow_le_pow_right₀ (by norm_num) hn
    have hq0 : 0 < (sig : ℚ) / 10 ^ n := by positivity
    have hq1 : (sig : ℚ) / 10 ^ n ≤ 1 / 2 := by
      rw [div_le_div_iff₀ hten (by norm_num), one_mul]
      calc (sig : ℚ) * 2 ≤ 2 ^ 53 * 2 := by linarith
        _ ≤ 10 ^ 23 := by norm_num
        _ ≤ 10 ^ n := hpow
    have hr0 : 0 < r := lt_of_lt_of_le (mul_pos hq0 (by norm_num)) hwithin.1
    have hr1 : r < 1 := by
      apply lt_of_le_of_lt hwithin.2
      norm_num at hq1 ⊢
      linarith
    -- Both lie between zero and one, so neither is an integer.
    exact iff_of_false (ne_intCast hr0 hr1 k) (ne_intCast hq0 (by linarith) k)

/-- A significand that is a double is read as an integer up to `2 ^ 53` exactly if its multiple is
that integer. -/
theorem value_scaled_iff {negative : Bool} {sig : Nat} {e k : Int} {x : Finite binary64}
    (hsig : sig < 2 ^ 53) (he : -307 ≤ e) (hk : k ≤ 2 ^ 53)
    (h : scaled? negative sig e = some x) :
    binary64.value x.rank = k ↔ (sig : ℚ) * 10 ^ e = k := by
  have hwithin := within_scaled he h
  by_cases he0 : 0 ≤ e
  · obtain ⟨n, rfl⟩ := Int.eq_ofNat_of_zero_le he0
    rw [zpow_natCast] at hwithin ⊢
    -- A product below 2 ^ 53 is exact; a greater one stays above `k` when it is rounded.
    by_cases hproduct : sig * 10 ^ n < 2 ^ 53
    · rw [value_scaled_up hsig hproduct h]
    · obtain ⟨hr, hq⟩ := ne_of_large_product hsig hk (Nat.not_lt.1 hproduct) hwithin
      exact iff_of_false hr hq
  · obtain ⟨n, rfl⟩ : ∃ n : Nat, e = -n := ⟨(-e).toNat, by omega⟩
    have hquotient : (sig : ℚ) * 10 ^ (-n : ℤ) = sig / 10 ^ n := by
      rw [zpow_neg, zpow_natCast, div_eq_mul_inv]
    have hten : (0 : ℚ) < 10 ^ n := by positivity
    rw [hquotient] at hwithin ⊢
    -- A quotient by an exact power is rounded once; one by a greater power is below one.
    by_cases hn : n < 23
    · by_cases hneg : k < 0
      · have hk0 : (k : ℚ) < 0 := by exact_mod_cast hneg
        have hr0 := binary64.value_nonneg x.rank
        have hq0 : 0 ≤ (sig : ℚ) / 10 ^ n := by positivity
        exact iff_of_false (by linarith) (by linarith)
      · obtain ⟨m, rfl⟩ := Int.eq_ofNat_of_zero_le (Int.not_lt.1 hneg)
        rw [Int.cast_natCast, value_scaled_down_iff hsig (by omega) hn h, div_eq_iff hten.ne']
        norm_cast
    · exact eq_iff_of_small_quotient hsig (Nat.not_lt.1 hn) hwithin k

/-! ### The digits that are kept -/

/-- Appending stops only at a digit that does not fit. -/
private theorem le_of_appendDigits {s sig d : Nat} {ds rest : List Nat}
    (h : appendDigits s ds = (sig, d :: rest)) : d ∈ ds ∧ 2 ^ 64 ≤ 10 * sig + d := by
  induction ds generalizing s with
  | nil => cases h
  -- The digit fits, or it is the one at which appending stops.
  | cons a ds ih =>
    rw [appendDigits] at h
    split at h
    case isTrue =>
      obtain ⟨hmem, hle⟩ := ih h
      exact ⟨List.mem_cons_of_mem a hmem, hle⟩
    case isFalse hfit =>
      cases h
      exact ⟨List.mem_cons_self, by omega⟩

/-- The digits that are kept denote a large number, unless all are. -/
private theorem exists_kept {s : Nat} {ds : List Nat} (hs : s < 2 ^ 64) (hds : ∀ d ∈ ds, d < 10) :
    ∃ front back, ds = front ++ back ∧
      appendDigits s ds = (s * 10 ^ front.length + ofDigits front, back) ∧
      s * 10 ^ front.length + ofDigits front < 2 ^ 64 ∧
      (back = [] ∨ 2 ^ 60 ≤ s * 10 ^ front.length + ofDigits front) := by
  -- The digits are split where appending stops.
  obtain ⟨kept, hkept, sig, hsig, heq, hfold⟩ := appendDigits_eq hs ds
  rw [foldl_digits] at hfold
  refine ⟨ds.take kept, ds.drop kept, (List.take_append_drop kept ds).symm, ?_, ?_, ?_⟩
  · rw [heq, hfold]
  · omega
  -- What does not fit shows that what is kept is large.
  · cases hback : ds.drop kept with
    | nil => exact Or.inl rfl
    | cons d rest =>
      rw [hback] at heq
      obtain ⟨hmem, hle⟩ := le_of_appendDigits heq
      have := hds d hmem
      right
      omega

/-- Numbers whose difference is small. -/
private theorem within_of_le {m n : Nat} (gap : Nat) (hlow : m ≤ n + gap) (hhigh : n ≤ m + gap)
    (hgap : 2 ^ 60 * gap ≤ m) : Within (1 / 2 ^ 60) m n := by
  have hlow' : (m : ℚ) ≤ n + gap := by exact_mod_cast hlow
  have hhigh' : (n : ℚ) ≤ m + gap := by exact_mod_cast hhigh
  have hgap' : (2 ^ 60 * gap : ℚ) ≤ m := by exact_mod_cast hgap
  constructor <;> norm_num at hgap' ⊢ <;> linarith

/-- Whole digits that are kept and a successor of them enclose both what is kept and all digits. -/
private theorem within_whole_kept {w f g u A B C : Nat} (hw : 2 ^ 60 ≤ w) (hf : f < B) (hg : g < A)
    (hu : u < C) :
    Within (1 / 2 ^ 60) (((w * B + f) * (A * C) : Nat) : ℚ)
      (w * (A * B * C) + (g * B + f) * C + u : Nat) := by
  -- What is kept is less than one unit above the whole digits, and so are all digits.
  have hkept : (w * B + f) * (A * C) ≤ w * (A * B * C) + A * B * C := by
    calc (w * B + f) * (A * C) ≤ (w * B + B) * (A * C) :=
          Nat.mul_le_mul_right _ (Nat.add_le_add_left hf.le _)
      _ = w * (A * B * C) + A * B * C := by ring
  have hbelow : w * (A * B * C) ≤ (w * B + f) * (A * C) := by
    calc w * (A * B * C) = w * B * (A * C) := by ring
      _ ≤ (w * B + f) * (A * C) := Nat.mul_le_mul_right _ (Nat.le_add_right _ _)
  have hall : (g * B + f) * C + u ≤ A * B * C := by
    calc (g * B + f) * C + u ≤ (g * B + f) * C + C := Nat.add_le_add_left hu.le _
      _ = (g * B + (f + 1)) * C := by ring
      _ ≤ (g * B + B) * C := Nat.mul_le_mul_right _ (Nat.add_le_add_left hf _)
      _ = (g + 1) * B * C := by ring
      _ ≤ A * B * C := Nat.mul_le_mul_right _ (Nat.mul_le_mul_right _ hg)
  apply within_of_le (A * B * C)
  · omega
  · omega
  · exact (Nat.mul_le_mul_right _ hw).trans hbelow

/-- Digits behind those that are kept are less than one unit of what is kept. -/
private theorem within_fraction_kept {m u C : Nat} (hm : 2 ^ 60 ≤ m) (hu : u < C) :
    Within (1 / 2 ^ 60) ((m * C : Nat) : ℚ) (m * C + u : Nat) := by
  apply within_of_le C
  · omega
  · omega
  · exact Nat.mul_le_mul_right C hm

/-- The digits of a numeral that are kept, moved to their place, denote the number up to a share of
`1 / 2 ^ 60`. -/
private theorem within_kept {w1 w2 f1 f2 : List Nat} (hw2 : ∀ d ∈ w2, d < 10)
    (hf1 : ∀ d ∈ f1, d < 10) (hf2 : ∀ d ∈ f2, d < 10) (hwhole : w2 = [] ∨ 2 ^ 60 ≤ ofDigits w1)
    (hfraction : f2 = [] ∨ 2 ^ 60 ≤ ofDigits w1 * 10 ^ f1.length + ofDigits f1) :
    Within (1 / 2 ^ 60)
      (((ofDigits w1 * 10 ^ f1.length + ofDigits f1) * 10 ^ (w2.length + f2.length) : Nat) : ℚ)
      (ofDigits (w1 ++ w2 ++ (f1 ++ f2)) : Nat) := by
  -- All digits are the kept ones and the dropped ones, each in its place.
  have hdigits : ofDigits (w1 ++ w2 ++ (f1 ++ f2)) =
      ofDigits w1 * (10 ^ w2.length * 10 ^ f1.length * 10 ^ f2.length) +
        (ofDigits w2 * 10 ^ f1.length + ofDigits f1) * 10 ^ f2.length + ofDigits f2 := by
    simp only [ofDigits_append, foldl_digits, List.length_append, Nat.pow_add]
    ring
  rw [hdigits, Nat.pow_add]
  rcases hwhole with rfl | hwhole
  · -- Only digits behind the point are lost.
    have hback : ofDigits w1 * (10 ^ ([] : List Nat).length * 10 ^ f1.length * 10 ^ f2.length) +
        (ofDigits [] * 10 ^ f1.length + ofDigits f1) * 10 ^ f2.length + ofDigits f2 =
          (ofDigits w1 * 10 ^ f1.length + ofDigits f1) * 10 ^ f2.length + ofDigits f2 := by
      simp only [List.length_nil, ofDigits, List.foldl_nil]
      ring
    rw [hback, List.length_nil, Nat.pow_zero, Nat.one_mul]
    rcases hfraction with rfl | hfraction
    · exact within_of_le 0 (Nat.le_refl _) (Nat.le_refl _) (Nat.zero_le _)
    · exact within_fraction_kept hfraction (ofDigits_lt hf2)
  · exact within_whole_kept hwhole (ofDigits_lt hf1) (ofDigits_lt hw2) (ofDigits_lt hf2)

/-- A significand and a power of ten that stand for the magnitude of a numeral: digits may have been
dropped, but only if there are more than fit into 64 bits. -/
structure StandsFor (sig : Nat) (e : Int) (n : Numeral) : Prop where
  lt : sig < 2 ^ 64
  within : Within (1 / 2 ^ 60) (sig * 10 ^ e) n.magnitude.value
  exact : n.magnitude.digits < 2 ^ 64 → sig = n.magnitude.digits ∧ e = n.magnitude.exponent

/-- If nothing is dropped, the number of the digits is what is kept. -/
private theorem eq_of_appendDigits {w : Nat} {ds : List Nat} (h : appendDigits 0 ds = (w, [])) :
    w = ofDigits ds ∧ w < 2 ^ 64 := by
  obtain ⟨kept, -, sig, hsig, heq, hfold⟩ := appendDigits_eq (s := 0) (by decide) ds
  obtain ⟨rfl, hback⟩ := Prod.mk.inj (h.symm.trans heq)
  have htake : ds.take kept = ds := by
    have := List.take_append_drop kept ds
    rwa [← hback, List.append_nil] at this
  rw [htake] at hfold
  exact ⟨hfold, hsig⟩

/-- All digits of the whole part are kept if all digits denote a number that fits. -/
theorem appendDigits_whole {n : Numeral} (h : n.magnitude.digits < 2 ^ 64) :
    appendDigits 0 n.whole = (ofDigits n.whole, []) := by
  have hle : ofDigits n.whole ≤ n.magnitude.digits := by
    show _ ≤ ofDigits (n.whole ++ n.fraction)
    rw [ofDigits_append, foldl_digits]
    have hpos : 0 < 10 ^ n.fraction.length := Nat.pow_pos (by decide)
    exact Nat.le_add_right_of_le (Nat.le_mul_of_pos_right _ hpos)
  exact appendDigits_of_lt (Nat.lt_of_le_of_lt hle h)

/-- All digits are kept if they denote a number that fits. -/
private theorem appendDigits_fraction {n : Numeral} (h : n.magnitude.digits < 2 ^ 64) :
    appendDigits (ofDigits n.whole) n.fraction = (n.magnitude.digits, []) := by
  rw [Numeral.magnitude, ofDigits_append] at h ⊢
  exact appendDigits_of_lt h

/-- What is made of the digits of a numeral stands for it. -/
private theorem standsFor_of_appendDigits {n : Numeral} (hw : ∀ d ∈ n.whole, d < 10)
    (hf : ∀ d ∈ n.fraction, d < 10) {w sig : Nat} {dropped unread : List Nat}
    (hwhole : appendDigits 0 n.whole = (w, dropped))
    (hfraction : appendDigits w n.fraction = (sig, unread)) :
    StandsFor sig
      (dropped.length - ((n.fraction.length : Int) - unread.length) + n.exponent.getD 0) n := by
  -- Both parts are cut, the whole part and then the fraction.
  obtain ⟨w1, w2, hw12, happend1, hlt1, hlarge1⟩ := exists_kept (s := 0) (by decide) hw
  rw [Nat.zero_mul, Nat.zero_add] at happend1 hlt1 hlarge1
  obtain ⟨rfl, rfl⟩ := Prod.mk.inj (hwhole.symm.trans happend1)
  obtain ⟨f1, f2, hf12, happend2, hlt2, hlarge2⟩ := exists_kept hlt1 hf
  obtain ⟨rfl, rfl⟩ := Prod.mk.inj (hfraction.symm.trans happend2)
  refine ⟨hlt2, ?_, ?_⟩
  · rw [hw12] at hw
    rw [hf12] at hf
    -- What is lost behind the kept digits is a small part of them.
    have hkept := within_kept (fun d hd => hw d (List.mem_append_right _ hd))
      (fun d hd => hf d (List.mem_append_left _ hd))
      (fun d hd => hf d (List.mem_append_right _ hd)) hlarge1 hlarge2
    rw [← hw12, ← hf12] at hkept
    have hscaled := hkept.mul_const (c := 10 ^ (n.exponent.getD 0 - n.fraction.length : Int))
      (by positivity)
    have hten : (10 : ℚ) ≠ 0 := by norm_num
    rw [Nat.cast_mul, Nat.cast_pow, Nat.cast_ofNat, mul_assoc, ← zpow_natCast (10 : ℚ),
      ← zpow_add₀ hten] at hscaled
    have he : (dropped.length + unread.length : Nat) +
        (n.exponent.getD 0 - n.fraction.length : Int) =
        dropped.length - ((n.fraction.length : Int) - unread.length) + n.exponent.getD 0 := by
      omega
    rwa [he] at hscaled
  -- If all digits fit, none is dropped.
  · intro hlt
    rw [appendDigits_whole hlt] at hwhole
    obtain ⟨hw1, rfl⟩ := Prod.mk.inj hwhole
    rw [← hw1, appendDigits_fraction hlt] at hfraction
    obtain ⟨hsig, rfl⟩ := Prod.mk.inj hfraction
    refine ⟨by rw [← hw1, hsig], ?_⟩
    simp only [Numeral.magnitude, List.length_nil]
    omega

/-- What a numeral is read as: the integer that it is written as, or the double of a significand and
a power of ten that stand for it. -/
theorem cases_of_ofNumeral {n : Numeral} {x : Number} (hw : ∀ d ∈ n.whole, d < 10)
    (hf : ∀ d ∈ n.fraction, d < 10) (h : ofNumeral? n = some x) :
    (∃ i : Int, x = .integer i ∧ n.isInteger = true ∧ n.value = i ∧ -2 ^ 63 ≤ i ∧ i < 2 ^ 64) ∨
    (∃ y sig e, x = .double y ∧ scaled? n.negative sig e = some y ∧ StandsFor sig e n ∧
      (n.isInteger = true → n.magnitude.digits = 0 ∨ 2 ^ 63 < n.magnitude.digits)) := by
  cases hwhole : appendDigits 0 n.whole with
  | mk w dropped =>
  cases hfraction : appendDigits w n.fraction with
  | mk sig unread =>
  have hstands := standsFor_of_appendDigits hw hf hwhole hfraction
  have hkept : dropped = [] → w = ofDigits n.whole ∧ w < 2 ^ 64 := by
    rintro rfl
    exact eq_of_appendDigits hwhole
  simp only [ofNumeral?, hwhole, hfraction] at h
  split at h
  -- A whole number that is not negative.
  case isTrue hint =>
    left
    simp only [Bool.and_eq_true, List.isEmpty_iff, Bool.not_eq_true'] at hint
    obtain ⟨⟨hn, hdropped⟩, hneg⟩ := hint
    cases h
    refine ⟨w, rfl, hn, ?_, ?_, ?_⟩
    · simp [Numeral.value, hneg, Numeral.magnitude_of_isInteger hn, Decimal.value,
        (hkept hdropped).1]
    · omega
    · have := (hkept hdropped).2
      omega
  case isFalse hint =>
    split at h
    -- A negative whole number.
    case isTrue hneg =>
      left
      simp only [Bool.and_eq_true, List.isEmpty_iff, decide_eq_true_eq] at hneg
      obtain ⟨⟨⟨⟨hn, hdropped⟩, hneg⟩, -⟩, hle⟩ := hneg
      cases h
      refine ⟨-w, rfl, hn, ?_, by omega, by omega⟩
      simp [Numeral.value, hneg, Numeral.magnitude_of_isInteger hn, Decimal.value,
        (hkept hdropped).1]
    -- All others are read as doubles.
    case isFalse hneg =>
      right
      obtain ⟨y, hy, rfl⟩ := Option.map_eq_some_iff.1 h
      refine ⟨y, sig, _, rfl, hy, hstands, fun hn => ?_⟩
      rw [Numeral.magnitude_of_isInteger hn]
      by_cases hdropped : dropped = []
      · -- The number is a negative zero, or it is below the least integer.
        have hneg' : n.negative = true := by simpa [hn, hdropped] using hint
        rw [(hkept hdropped).1] at hneg
        simp only [hn, hdropped, hneg', List.isEmpty_nil, Bool.and_true, Bool.true_and,
          Bool.and_eq_true, decide_eq_true_eq, not_and] at hneg
        dsimp only
        omega
      · right
        by_contra hle
        have hlt : n.magnitude.digits < 2 ^ 64 := by
          rw [Numeral.magnitude_of_isInteger hn]
          omega
        rw [appendDigits_whole hlt] at hwhole
        exact hdropped (Prod.mk.inj hwhole).2.symm

end Json.Number

end GraphCodec
