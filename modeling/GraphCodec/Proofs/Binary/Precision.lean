import Mathlib
import GraphCodec.Proofs.Binary.Rounding

/-!
# The precision of rounding

`BinaryFormat.value` and `Finite.value` are the rational numbers that ranks and finite numbers stand
for.  What `BinaryFormat.nearest` yields differs from the quotient that it rounds by at most a share
`1 / 2P` of the quotient (`within_nearest`), `P` being the number of ranks in a binade, and not at
all if the quotient is a whole number below `2P` (`value_nearest_mul`).  The share is lost for
quotients below the first full binade only, so most lemmas ask for `IsNormal`.
-/

namespace GraphCodec

/-- Rounding to a whole number goes down by at most one half. -/
private theorem le_mul_roundHalfEven (num : Nat) {den : Nat} (hden : 0 < den) :
    2 * num ≤ 2 * (den * roundHalfEven num den) + den := by
  have hdiv := Nat.div_add_mod num den
  have hmod := Nat.mod_lt num hden
  unfold roundHalfEven
  dsimp only
  split
  -- Rounded down: what is dropped is at most one half.
  case isTrue h => omega
  -- Rounded up: the next whole number is above the quotient.
  case isFalse h =>
    rw [Nat.mul_add, Nat.mul_one]
    omega

/-- A multiple is rounded to itself. -/
private theorem roundHalfEven_mul {den : Nat} (hden : 0 < den) (k : Nat) :
    roundHalfEven (den * k) den = k := by
  have hdiv : den * k / den = k := Nat.mul_div_cancel_left k hden
  have hmod : den * k % den = 0 := Nat.mul_mod_right den k
  simp [roundHalfEven, hdiv, hmod, hden]

/-- Rounding to a whole number, a tie going up, changes a quotient by at most one half. -/
theorem abs_roundHalfUp_sub_le (num : Nat) {den : Nat} (hden : 0 < den) :
    |(roundHalfUp num den : ℚ) - num / den| ≤ 1 / 2 := by
  have hden' : (0 : ℚ) < den := by exact_mod_cast hden
  have hdiv := Nat.div_add_mod (2 * num + den) (2 * den)
  have hmod := Nat.mod_lt (2 * num + den) (Nat.mul_pos Nat.two_pos hden)
  rw [← roundHalfUp] at hdiv
  generalize roundHalfUp num den = k at *
  generalize (2 * num + den) % (2 * den) = r at *
  -- The equation and the bound of the division are taken to the rational numbers.
  have hdiv' : (2 : ℚ) * den * k + r = 2 * num + den := by exact_mod_cast hdiv
  have hmod' : (r : ℚ) < 2 * den := by exact_mod_cast hmod
  have hr : (0 : ℚ) ≤ r := by positivity
  -- The error is what the remainder differs from one half by.
  have hquotient : (k : ℚ) - num / den = (den - r) / (2 * den) := by
    field_simp
    linarith
  rw [hquotient, abs_le, le_div_iff₀ (by positivity), div_le_iff₀ (by positivity)]
  constructor <;> linarith

/-! ### Shares -/

/-- Whether a number differs from `q` by at most a share `e` of `q`. -/
def Within (e q x : ℚ) : Prop := q * (1 - e) ≤ x ∧ x ≤ q * (1 + e)

namespace Within

variable {d e p q r x y : ℚ}

/-- Being close to a number allows for a greater share. -/
theorem mono (hq : 0 ≤ q) (h : Within d q x) (hde : d ≤ e) : Within e q x := by
  constructor
  · exact le_trans (mul_le_mul_of_nonneg_left (by linarith) hq) h.1
  · exact le_trans h.2 (mul_le_mul_of_nonneg_left (by linarith) hq)

private theorem nonneg (hq : 0 ≤ q) (he : e ≤ 1) (h : Within e q x) : 0 ≤ x :=
  le_trans (mul_nonneg hq (by linarith)) h.1

/-- A number that is close to another differs from it by at most the share of it. -/
theorem abs_sub_le (h : Within e q x) : |x - q| ≤ q * e := by
  rw [abs_le]
  constructor <;> linarith [h.1, h.2]

/-- Both of two close numbers can be multiplied by a number that is not negative. -/
theorem mul_const {c : ℚ} (hc : 0 ≤ c) (h : Within e q x) : Within e (q * c) (x * c) := by
  constructor
  · calc q * c * (1 - e) = q * (1 - e) * c := by ring
      _ ≤ x * c := mul_le_mul_of_nonneg_right h.1 hc
  · calc x * c ≤ q * (1 + e) * c := mul_le_mul_of_nonneg_right h.2 hc
      _ = q * c * (1 + e) := by ring

/-- What is close to something close is close. -/
theorem trans (hq : 0 ≤ q) (hd : 0 ≤ d) (he : 0 ≤ e) (he1 : e ≤ 1)
    (hx : Within d q x) (hy : Within e x y) : Within (d + e + d * e) q y := by
  have hde := mul_nonneg hd he
  constructor
  -- The two shares below are multiplied, and their product is the greater for it.
  · calc q * (1 - (d + e + d * e)) ≤ q * ((1 - d) * (1 - e)) :=
          mul_le_mul_of_nonneg_left (by linarith) hq
      _ = q * (1 - d) * (1 - e) := by ring
      _ ≤ x * (1 - e) := mul_le_mul_of_nonneg_right hx.1 (by linarith)
      _ ≤ y := hy.1
  -- Above, the product of the shares is exactly the share of the claim.
  · calc y ≤ x * (1 + e) := hy.2
      _ ≤ q * (1 + d) * (1 + e) := mul_le_mul_of_nonneg_right hx.2 (by linarith)
      _ = q * (1 + (d + e + d * e)) := by ring

/-- The product of close numbers. -/
theorem mul (hp : 0 ≤ p) (hq : 0 ≤ q) (hd : 0 ≤ d) (he : 0 ≤ e) (hd1 : d ≤ 1) (he1 : e ≤ 1)
    (hx : Within d p x) (hy : Within e q y) : Within (d + e + d * e) (p * q) (x * y) := by
  have hde := mul_nonneg hd he
  have hx0 := hx.nonneg hp hd1
  have hy0 := hy.nonneg hq he1
  constructor
  · calc p * q * (1 - (d + e + d * e)) ≤ p * q * ((1 - d) * (1 - e)) :=
          mul_le_mul_of_nonneg_left (by linarith) (mul_nonneg hp hq)
      _ = p * (1 - d) * (q * (1 - e)) := by ring
      _ ≤ x * y := mul_le_mul hx.1 hy.1 (mul_nonneg hq (by linarith)) hx0
  · calc x * y ≤ p * (1 + d) * (q * (1 + e)) :=
          mul_le_mul hx.2 hy.2 hy0 (mul_nonneg hp (by linarith))
      _ = p * q * (1 + (d + e + d * e)) := by ring

/-- The quotient of close numbers. -/
theorem div (hp : 0 ≤ p) (hq : 0 < q) (hd : 0 ≤ d) (he : 0 ≤ e) (hd1 : d ≤ 1) (he1 : e < 1)
    (hx : Within d p x) (hy : Within e q y) : Within ((d + e) / (1 - e)) (p / q) (x / y) := by
  have hlow : 0 < q * (1 - e) := mul_pos hq (by linarith)
  have hy0 : 0 < y := lt_of_lt_of_le hlow hy.1
  have he0 : 0 < 1 - e := by linarith
  constructor
  · -- The share below the quotient is smaller than the one above it.
    have hshare : 1 - (d + e) / (1 - e) ≤ (1 - d) / (1 + e) := by
      have hsmall : (d + e) / (1 + e) ≤ (d + e) / (1 - e) :=
        div_le_div_of_nonneg_left (by linarith) he0 (by linarith)
      have heq : (1 - d) / (1 + e) = 1 - (d + e) / (1 + e) := by
        have : 1 + e ≠ 0 := by linarith
        field_simp
        ring
      linarith
    calc p / q * (1 - (d + e) / (1 - e)) ≤ p / q * ((1 - d) / (1 + e)) :=
          mul_le_mul_of_nonneg_left hshare (div_nonneg hp hq.le)
      _ = p * (1 - d) / (q * (1 + e)) := by rw [div_mul_div_comm]
      _ ≤ x / y := div_le_div₀ (hx.nonneg hp hd1) hx.1 hy0 hy.2
  · calc x / y ≤ p * (1 + d) / (q * (1 - e)) :=
          div_le_div₀ (mul_nonneg hp (by linarith)) hx.2 hlow hy.1
      _ = p / q * (1 + (d + e) / (1 - e)) := by
          have := he0.ne'
          field_simp
          ring

end Within

/-! ### Ranks as numbers -/

namespace BinaryFormat

variable (f : BinaryFormat)

/-- The number that a rank stands for. -/
def value (rank : Nat) : ℚ := f.units rank / 2 ^ f.scale

/-- No rank stands for a negative number. -/
theorem value_nonneg (rank : Nat) : 0 ≤ f.value rank := by
  unfold value
  positivity

/-- Whether a quotient is zero or at least the least number with a full mantissa. -/
def IsNormal (num den : Nat) : Prop := num = 0 ∨ f.binadeSize * den ≤ num * 2 ^ f.scale

/-- One is in the range of full mantissas. -/
theorem binadeSize_le_scale : f.binadeSize ≤ 2 ^ f.scale := by
  apply Nat.pow_le_pow_right (by decide)
  unfold scale
  omega

/-- A whole number has a full mantissa. -/
theorem isNormal_one (n : Nat) : f.IsNormal n 1 := by
  by_cases hn : n = 0
  · exact Or.inl hn
  · right
    calc f.binadeSize * 1 ≤ 1 * 2 ^ f.scale := by
          rw [Nat.mul_one, Nat.one_mul]
          exact f.binadeSize_le_scale
      _ ≤ n * 2 ^ f.scale := Nat.mul_le_mul_right _ (by omega)

section Nearest

variable (num : Nat) {den : Nat}

/-- Rounding goes down by at most half a unit of the binade. -/
private theorem le_mantissa_mul (hden : 0 < den) :
    2 * (num * 2 ^ f.scale) ≤
      2 * (den * 2 ^ f.targetBinade num den * f.mantissa num den) +
        den * 2 ^ f.targetBinade num den :=
  le_mul_roundHalfEven _ (Nat.mul_pos hden (Nat.two_pow_pos _))

/-- The spacing of the binade is at most the share `1 / P` of a quotient with a full mantissa. -/
private theorem spacing_le (hden : 0 < den) (h : f.binadeSize * den ≤ num * 2 ^ f.scale) :
    f.binadeSize * (den * 2 ^ f.targetBinade num den) ≤ num * 2 ^ f.scale := by
  by_cases hb : 0 < f.targetBinade num den
  · exact f.targetBinade_le num hden hb
  · have h0 : f.targetBinade num den = 0 := by omega
    simpa [h0] using h

/-- The number that a quotient is rounded to. -/
theorem value_nearest (hden : 0 < den) :
    f.value (f.nearest num den) =
      ((den * 2 ^ f.targetBinade num den * f.mantissa num den : Nat) : ℚ) /
        ((den * 2 ^ f.scale : Nat) : ℚ) := by
  have hden' : (den : ℚ) ≠ 0 := by exact_mod_cast hden.ne'
  rw [value, f.units_nearest num hden]
  push_cast
  field_simp

/-- A quotient on the grid of its binade is kept as it is. -/
theorem value_nearest_of_dvd (hden : 0 < den)
    (h : den * 2 ^ f.targetBinade num den ∣ num * 2 ^ f.scale) :
    f.value (f.nearest num den) = num / den := by
  have hpos : 0 < den * 2 ^ f.targetBinade num den := Nat.mul_pos hden (Nat.two_pow_pos _)
  obtain ⟨k, hk⟩ := h
  have hm : f.mantissa num den = k := by rw [mantissa, hk, roundHalfEven_mul hpos]
  have hden' : (den : ℚ) ≠ 0 := by exact_mod_cast hden.ne'
  rw [f.value_nearest num hden, hm, ← hk]
  push_cast
  field_simp

/-- Rounding keeps a quotient up to a share of `1 / 2P`. -/
theorem within_nearest (hden : 0 < den) (h : f.IsNormal num den) :
    Within (1 / (2 * f.binadeSize)) (num / den) (f.value (f.nearest num den)) := by
  cases h with
  -- Zero is kept as it is.
  | inl h0 =>
    subst h0
    rw [f.value_nearest_of_dvd 0 hden (by simp)]
    simp [Within]
  | inr h =>
    have hP : (0 : ℚ) < f.binadeSize := by exact_mod_cast f.binadeSize_pos
    have hT : (0 : ℚ) < (den * 2 ^ f.scale : Nat) := by
      exact_mod_cast Nat.mul_pos hden (Nat.two_pow_pos _)
    have hden' : (den : ℚ) ≠ 0 := by exact_mod_cast hden.ne'
    -- Both sides are put over one denominator, so that numerators can be compared.
    have hquotient : (num : ℚ) / den = (num * 2 ^ f.scale : Nat) / (den * 2 ^ f.scale : Nat) := by
      push_cast
      field_simp
    rw [f.value_nearest num hden, hquotient]
    -- Rounding the mantissa is off by at most one half, and the spacing is a share of the quotient.
    have hup := f.mantissa_mul_le num hden
    have hdown := f.le_mantissa_mul num hden
    have hspacing := f.spacing_le num hden h
    generalize f.mantissa num den = m at *
    generalize den * 2 ^ f.targetBinade num den = D at *
    generalize num * 2 ^ f.scale = n at *
    generalize ((den * 2 ^ f.scale : Nat) : ℚ) = T at *
    have hup' : (2 : ℚ) * (D * m) ≤ 2 * n + D := by exact_mod_cast hup
    have hdown' : (2 : ℚ) * n ≤ 2 * (D * m) + D := by exact_mod_cast hdown
    have hspacing' : (f.binadeSize : ℚ) * D ≤ n := by exact_mod_cast hspacing
    -- The error is at most half a spacing, which is a share of the quotient.
    have herror : |((D * m : Nat) : ℚ) - n| ≤ D / 2 := by
      push_cast
      rw [abs_le]
      constructor <;> linarith
    -- Half a spacing is at most the share, as a binade has `P` multiples.
    have hhalf : (D : ℚ) / 2 ≤ n / (2 * f.binadeSize) := by
      rw [div_le_div_iff₀ (by norm_num) (by positivity)]
      linarith
    have hbounds := abs_le.1 (herror.trans hhalf)
    have hshare : (n : ℚ) / (2 * f.binadeSize) = n * (1 / (2 * f.binadeSize)) := by ring
    rw [hshare] at hbounds
    constructor
    · rw [div_mul_eq_mul_div]
      apply div_le_div_of_nonneg_right _ hT.le
      linarith [hbounds.1]
    · rw [div_mul_eq_mul_div]
      apply div_le_div_of_nonneg_right _ hT.le
      linarith [hbounds.2]

/-- Rounding at most doubles a quotient, also below the first full binade. -/
theorem value_nearest_le_double (hden : 0 < den) :
    f.value (f.nearest num den) ≤ 2 * (num / den) := by
  have hden' : (0 : ℚ) < den := by exact_mod_cast hden
  have hunits : (den * f.units (f.nearest num den) : ℚ) ≤ 2 * (num * 2 ^ f.scale) := by
    exact_mod_cast f.units_nearest_le_double num hden
  rw [value, ← mul_div_assoc, div_le_div_iff₀ (by positivity) hden']
  linarith

/-- A mantissa times a power of two is kept as it is. -/
theorem value_nearest_shift {m : Nat} (j : Nat) (hden : 0 < den) (hm : m < 2 * f.binadeSize) :
    f.value (f.nearest (m * 2 ^ j * den) den) = m * 2 ^ j := by
  have hdiv : m * 2 ^ j * den * 2 ^ f.scale / den = m * 2 ^ (j + f.scale) := by
    rw [Nat.mul_right_comm, Nat.mul_div_cancel _ hden, Nat.mul_assoc, Nat.pow_add]
  -- The binade is at most that of the exponent, since the mantissa has no more digits than fit.
  have hbinade : f.targetBinade (m * 2 ^ j * den) den ≤ j + f.scale := by
    unfold targetBinade
    rw [hdiv]
    by_cases h0 : m = 0
    · simp [h0]
    · have hne : m * 2 ^ (j + f.scale) ≠ 0 := Nat.mul_ne_zero h0 (Nat.two_pow_pos _).ne'
      have hlt : (m * 2 ^ (j + f.scale)).log2 < f.fractionBits + 1 + (j + f.scale) := by
        rw [Nat.log2_lt hne, Nat.pow_add 2 (f.fractionBits + 1), Nat.pow_succ]
        apply Nat.mul_lt_mul_of_pos_right _ (Nat.two_pow_pos _)
        have hP : f.binadeSize = 2 ^ f.fractionBits := rfl
        omega
      omega
  -- The quotient lies on the grid of its binade, so nothing is rounded away.
  have hdvd : den * 2 ^ f.targetBinade (m * 2 ^ j * den) den ∣ m * 2 ^ j * den * 2 ^ f.scale := by
    calc den * 2 ^ f.targetBinade (m * 2 ^ j * den) den ∣ den * (m * 2 ^ (j + f.scale)) :=
          Nat.mul_dvd_mul_left _ ((Nat.pow_dvd_pow 2 hbinade).mul_left m)
      _ = m * 2 ^ j * den * 2 ^ f.scale := by rw [Nat.pow_add]; ring
  have hden' : (den : ℚ) ≠ 0 := by exact_mod_cast hden.ne'
  rw [f.value_nearest_of_dvd _ hden hdvd]
  push_cast
  field_simp

/-- A whole number that fits into a mantissa is kept as it is. -/
theorem value_nearest_mul {m : Nat} (hden : 0 < den) (hm : m < 2 * f.binadeSize) :
    f.value (f.nearest (m * den) den) = m := by
  simpa using f.value_nearest_shift 0 hden hm

end Nearest

end BinaryFormat

/-! ### Finite numbers -/

namespace Finite

variable {f : BinaryFormat}

/-- The number that a finite number is. -/
def value (x : Finite f) : ℚ := if x.negative then -f.value x.rank else f.value x.rank

/-- The magnitude of a finite number. -/
theorem abs_value (x : Finite f) : |x.value| = f.value x.rank := by
  unfold value
  split
  · rw [abs_neg, abs_of_nonneg (f.value_nonneg _)]
  · rw [abs_of_nonneg (f.value_nonneg _)]

/-- A finite number is read as an integer exactly if it is one. -/
theorem toInt?_eq_some {x : Finite f} {i : Int} : x.toInt? = some i ↔ x.value = i := by
  -- A value is whole exactly if its units are a multiple of those of one.
  have hS : (2 ^ f.scale : ℚ) ≠ 0 := by positivity
  have hwhole : ∀ k : Int, f.value x.rank = k ↔ (x.units : Int) = k * 2 ^ f.scale := by
    intro k
    rw [BinaryFormat.value, div_eq_iff hS]
    show ((x.units : Nat) : ℚ) = _ ↔ _
    constructor
    · intro h
      exact_mod_cast h
    · intro h
      exact_mod_cast h
  have hdiv := Nat.div_add_mod x.units (2 ^ f.scale)
  unfold toInt? value
  by_cases hmod : x.units % 2 ^ f.scale = 0
  -- No rest, so the quotient of the units is the value.
  · have hunits : f.value x.rank = (x.units / 2 ^ f.scale : Nat) := by
      have := (hwhole (x.units / 2 ^ f.scale : Nat)).2 (by
        rw [hmod, Nat.add_zero] at hdiv
        rw [mul_comm]
        exact_mod_cast hdiv.symm)
      exact_mod_cast this
    rw [if_pos hmod, hunits]
    have hcast : (((x.units / 2 ^ f.scale : Nat) : Int) : ℚ) = (x.units / 2 ^ f.scale : Nat) :=
      Int.cast_natCast _
    cases x.negative
    · simp only [Bool.false_eq_true, if_false, Option.some.injEq, ← hcast, Int.cast_inj]
    · simp only [if_true, Option.some.injEq, ← hcast, ← Int.cast_neg, Int.cast_inj]
  -- With a rest there is no integer, neither in the result nor in the value.
  · rw [if_neg hmod]
    refine iff_of_false (by simp) fun h => hmod ?_
    -- The magnitude would be whole.
    obtain ⟨k, hk⟩ : ∃ k : Int, f.value x.rank = k := by
      split at h
      · exact ⟨-i, by push_cast; linarith⟩
      · exact ⟨i, h⟩
    have hunits := (hwhole k).1 hk
    have : (2 ^ f.scale : Int) ∣ x.units := ⟨k, by rw [hunits, mul_comm]⟩
    exact Nat.mod_eq_zero_of_dvd (by exact_mod_cast this)

end Finite

end GraphCodec
