import Mathlib
import GraphCodec.Binary.Reading
import GraphCodec.Proofs.Binary.Precision
import GraphCodec.Proofs.Json.NumberPrecision

/-!
# When rounding overflows

A quotient is rounded to a finite number exactly if it is below
`BinaryFormat.overflowThreshold`, the midpoint of the greatest finite number and its successor
(`nearest_lt_infinityRank_iff`).  From this follows which decimals, which numerals and which
numbers of another format become an infinity.
-/

namespace GraphCodec

/-- A quotient that is at most one half below an even number is rounded to it, or further up. -/
private theorem le_roundHalfEven_of_even {num den k : Nat} (hden : 0 < den) (hk : k % 2 = 0)
    (h : 2 * (k * den) ≤ 2 * num + den) : k ≤ roundHalfEven num den := by
  have hdiv := Nat.div_add_mod' num den
  have hmod := Nat.mod_lt num hden
  rcases Nat.lt_or_ge (num / den) k with hlt | hge
  · -- The whole part is the odd number before, and the rest is at least one half.
    have hle : num / den * den + den ≤ k * den := by
      rw [← Nat.succ_mul]
      exact Nat.mul_le_mul_right _ hlt
    have hodd : num / den + 1 = k := by
      -- If a further multiple fitted in between, the quotient would be too small for `h`.
      by_contra hne
      have hbelow : num / den * den + 2 * den ≤ k * den := by
        rw [← Nat.add_mul]
        exact Nat.mul_le_mul_right _ (by omega)
      omega
    -- What is left over the odd number is at least half of the denominator.
    have hrest : den ≤ 2 * (num % den) := by
      rw [← hodd, Nat.add_mul, Nat.one_mul] at h
      omega
    unfold roundHalfEven
    dsimp only
    split <;> omega
  -- The quotient has reached the even number already, and rounding does not fall below it.
  · exact hge.trans (le_roundHalfEven num den)

namespace BinaryFormat

variable (f : BinaryFormat)

/-- The midpoint of the greatest finite number and its successor, the power of two that would come
next. -/
def overflowThreshold : ℚ :=
  (2 - 1 / (2 * f.binadeSize)) * 2 ^ (2 ^ (f.exponentBits - 1) - 1)

variable {f}

/-- The threshold as a quotient of units. -/
theorem overflowThreshold_eq (hf : 2 ≤ f.exponentBits) :
    f.overflowThreshold =
      (4 * f.binadeSize - 1) * 2 ^ (2 ^ f.exponentBits - 3) / (2 * 2 ^ f.scale) := by
  -- The exponents are natural numbers, so the differences in them are put as sums first.
  have hP : (f.binadeSize : ℚ) ≠ 0 := by exact_mod_cast f.binadeSize_pos.ne'
  obtain ⟨e, he⟩ : ∃ e, f.exponentBits = e + 2 := ⟨f.exponentBits - 2, by omega⟩
  have hone := Nat.one_le_two_pow (n := e)
  have hscale : (2 : ℚ) ^ f.scale = 2 ^ (2 ^ (e + 1) - 2) * f.binadeSize := by
    rw [scale, pow_add, binadeSize, he, Nat.add_sub_assoc (by decide)]
    push_cast
    rfl
  have hexponent : 2 ^ f.exponentBits - 3 = (2 ^ (e + 1) - 1) + (2 ^ (e + 1) - 2) := by
    rw [he, pow_succ, pow_add]
    omega
  rw [overflowThreshold, hexponent, hscale, he, Nat.add_sub_assoc (by decide),
    pow_add _ (2 ^ (e + 1) - 1)]
  field_simp
  ring

/-- The greatest power of two that is finite is below the threshold. -/
theorem pow_le_overflowThreshold : 2 ^ (2 ^ (f.exponentBits - 1) - 1) ≤ f.overflowThreshold := by
  have hP : (1 : ℚ) ≤ f.binadeSize := by exact_mod_cast f.binadeSize_pos
  have hhalf : 1 / (2 * (f.binadeSize : ℚ)) ≤ 1 := by
    rw [div_le_one (by positivity)]
    linarith
  exact le_mul_of_one_le_left (by positivity) (by linarith)

theorem one_le_overflowThreshold : 1 ≤ f.overflowThreshold :=
  (one_le_pow₀ (by norm_num)).trans pow_le_overflowThreshold

/-- The threshold is below the powers of ten that are not computed. -/
private theorem overflowThreshold_le (hf : 2 ≤ f.exponentBits) :
    f.overflowThreshold ≤ 10 ^ (2 ^ f.exponentBits) := by
  -- The threshold is below a power of two, and two is below ten.
  have hlt : 2 ^ (f.exponentBits - 1) < 2 ^ f.exponentBits :=
    Nat.pow_lt_pow_right (by decide) (by omega)
  have hpos := Nat.one_le_two_pow (n := f.exponentBits - 1)
  calc f.overflowThreshold ≤ 2 * 2 ^ (2 ^ (f.exponentBits - 1) - 1) :=
        mul_le_mul_of_nonneg_right
          (by linarith [show (0 : ℚ) ≤ 1 / (2 * f.binadeSize) by positivity])
          (by positivity)
    _ = 2 ^ (2 ^ (f.exponentBits - 1) - 1 + 1) := (pow_succ' _ _).symm
    _ ≤ 2 ^ (2 ^ f.exponentBits) := pow_le_pow_right₀ (by norm_num) (by omega)
    _ ≤ 10 ^ (2 ^ f.exponentBits) := pow_le_pow_left₀ (by norm_num) (by norm_num) _

/-- Infinity is the first rank of the second binade behind the last but two. -/
theorem infinityRank_eq (hf : 2 ≤ f.exponentBits) :
    f.infinityRank = (2 ^ f.exponentBits - 3 + 2) * f.binadeSize := by
  have hpow : 2 ^ 2 ≤ 2 ^ f.exponentBits := Nat.pow_le_pow_right (by decide) hf
  have hsum : 2 ^ f.exponentBits - 1 = 2 ^ f.exponentBits - 3 + 2 := by omega
  rw [infinityRank, hsum, binadeSize]

/-- A quotient from the midpoint on is rounded to infinity. -/
private theorem infinityRank_le_nearest (hf : 2 ≤ f.exponentBits) {num den : Nat} (hden : 0 < den)
    (h : (4 * f.binadeSize - 1) * (den * 2 ^ (2 ^ f.exponentBits - 3)) ≤
      2 * (num * 2 ^ f.scale)) : f.infinityRank ≤ f.nearest num den := by
  -- In ranks the claim is about the binade `b` and the multiple `m` that the quotient is rounded
  -- to.
  rw [nearest_eq, infinityRank_eq hf]
  have hP := f.binadeSize_pos
  have hlt := f.lt_targetBinade num hden
  have hmantissa := f.le_mantissa num hden
  have hround : ∀ {b}, f.targetBinade num den = b →
      f.mantissa num den = roundHalfEven (num * 2 ^ f.scale) (den * 2 ^ b) := by
    rintro b rfl
    rfl
  generalize f.mantissa num den = m at *
  generalize f.targetBinade num den = b at *
  generalize num * 2 ^ f.scale = n at *
  generalize 2 ^ f.exponentBits - 3 = B at *
  generalize f.binadeSize = P at *
  -- The bound of `h` in words: four binades less one unit.
  have hsplit : (4 * P - 1) * (den * 2 ^ B) + den * 2 ^ B = 4 * P * (den * 2 ^ B) := by
    rw [← Nat.succ_mul]
    congr 1
    omega
  rcases Nat.lt_trichotomy b B with hb | rfl | hb
  · -- A lower binade ends at half the end of the last one.
    exfalso
    have hstep : den * 2 ^ b * 2 ≤ den * 2 ^ B := by
      have := Nat.pow_le_pow_right (by decide : 0 < 2) (show b + 1 ≤ B from hb)
      calc den * 2 ^ b * 2 = den * 2 ^ (b + 1) := by rw [Nat.pow_succ]; ring
        _ ≤ den * 2 ^ B := Nat.mul_le_mul_left _ this
    have hpos : 0 < den * 2 ^ B := Nat.mul_pos hden (Nat.two_pow_pos _)
    generalize den * 2 ^ B = d at *
    generalize den * 2 ^ b = e at *
    -- The quotient would stand below the end of its binade, which `h` excludes.
    have h1 : 2 * P * e * 2 ≤ 2 * P * d := by
      rw [Nat.mul_assoc]
      exact Nat.mul_le_mul_left _ hstep
    have h2 : 2 * P * d + 2 * P * d = 4 * P * d := by ring
    have h3 : d ≤ 2 * P * d := Nat.le_mul_of_pos_left _ (by omega)
    omega
  · -- The last binade is filled up to its end, which is even.
    have hd : 0 < den * 2 ^ b := Nat.mul_pos hden (Nat.two_pow_pos _)
    have htop : 2 * P ≤ m := by
      rw [hround rfl]
      apply le_roundHalfEven_of_even hd (by omega)
      have : 2 * (2 * P * (den * 2 ^ b)) = 4 * P * (den * 2 ^ b) := by ring
      omega
    calc (b + 2) * P = b * P + 2 * P := by ring
      _ ≤ b * P + m := Nat.add_le_add_left htop _
  -- A binade beyond the last one begins at infinity.
  · have hm : P ≤ m := hmantissa.resolve_left (by omega)
    calc (B + 2) * P = (B + 1) * P + P := by ring
      _ ≤ b * P + m := Nat.add_le_add (Nat.mul_le_mul_right _ hb) hm

/-- A quotient is rounded to a finite number exactly if it is below the midpoint of the greatest
finite number and its successor. -/
theorem nearest_lt_infinityRank_iff (hf : 2 ≤ f.exponentBits) {num den : Nat} (hden : 0 < den) :
    f.nearest num den < f.infinityRank ↔ (num : ℚ) / den < f.overflowThreshold := by
  have hP := f.binadeSize_pos
  have hden' : (0 : ℚ) < den := by exact_mod_cast hden
  -- The bound on the quotient is one on the units of its numerator, which are natural numbers.
  have hunits : (num : ℚ) / den < f.overflowThreshold ↔
      2 * (num * 2 ^ f.scale) < (4 * f.binadeSize - 1) * (den * 2 ^ (2 ^ f.exponentBits - 3)) := by
    rw [overflowThreshold_eq hf, div_lt_div_iff₀ hden' (by positivity), ← Nat.cast_lt (α := ℚ)]
    push_cast [Nat.cast_sub (show 1 ≤ 4 * f.binadeSize by omega)]
    constructor <;> intro h <;> linarith
  rw [hunits]
  constructor
  -- From right to left: a quotient from the midpoint on would have been rounded to infinity.
  · intro h
    by_contra hle
    exact absurd (infinityRank_le_nearest hf hden (Nat.not_lt.1 hle)) (Nat.not_le.2 h)
  · exact f.nearest_lt_infinityRank num hf hden

/-- Every finite number is below the threshold. -/
theorem value_lt_overflowThreshold (hf : 2 ≤ f.exponentBits) {rank : Nat}
    (h : rank < f.infinityRank) : f.value rank < f.overflowThreshold := by
  have hP := f.binadeSize_pos
  -- The greatest finite number is the last multiple in the last binade.
  have hunits : f.units rank ≤ (2 * f.binadeSize - 1) * 2 ^ (2 ^ f.exponentBits - 3) := by
    rw [infinityRank_eq hf, Nat.add_mul] at h
    apply f.units_le <;> omega
  rw [value, overflowThreshold_eq hf, div_lt_div_iff₀ (by positivity) (by positivity)]
  -- The same bound between rational numbers.
  have hunits' : (f.units rank : ℚ) ≤ (2 * f.binadeSize - 1) * 2 ^ (2 ^ f.exponentBits - 3) := by
    have := (Nat.cast_le (α := ℚ)).2 hunits
    push_cast [Nat.cast_sub (show 1 ≤ 2 * f.binadeSize by omega)] at this
    exact this
  have hpos : (0 : ℚ) < 2 ^ (2 ^ f.exponentBits - 3) := by positivity
  -- The threshold is half a spacing above it.
  calc (f.units rank : ℚ) * (2 * 2 ^ f.scale)
      ≤ (2 * f.binadeSize - 1) * 2 ^ (2 ^ f.exponentBits - 3) * (2 * 2 ^ f.scale) :=
        mul_le_mul_of_nonneg_right hunits' (by positivity)
    _ < (4 * f.binadeSize - 1) * 2 ^ (2 ^ f.exponentBits - 3) * 2 ^ f.scale := by
        have : (0 : ℚ) < 2 ^ f.scale := by positivity
        nlinarith [mul_pos hpos this]

end BinaryFormat

/-! ### Numbers that become infinite -/

namespace Decimal

theorem ratio_pos (d : Decimal) : 0 < d.ratio.2 := Nat.pow_pos (by decide)

/-- The quotient that a decimal is rounded from. -/
theorem ratio_eq (d : Decimal) : (d.ratio.1 : ℚ) / d.ratio.2 = d.value := by
  have hten : (10 : ℚ) ≠ 0 := by norm_num
  rw [ratio, value]
  push_cast
  rw [mul_div_assoc, ← zpow_natCast, ← zpow_natCast, ← zpow_sub₀ hten]
  congr 2
  omega

/-- A number has fewer digits than a power of ten that is not below it. -/
private theorem lt_pow_length_digitsOf (n : Nat) : n < 10 ^ (digitsOf n).length := by
  have hlt : ∀ d ∈ (digitsOf n).map digitValue, d < 10 := by
    intro d hd
    obtain ⟨c, hc, rfl⟩ := List.mem_map.1 hd
    exact digitValue_lt (isDigit_of_mem_digitsOf hc)
  have hbound := ofDigits_lt hlt
  rwa [ofDigits_digitsOf, List.length_map] at hbound

/-- A decimal is less than the power of ten that its digits do not reach. -/
theorem value_lt (d : Decimal) : d.value < 10 ^ ((digitsOf d.digits).length + d.exponent) := by
  have hlt : (d.digits : ℚ) < 10 ^ (digitsOf d.digits).length := by
    exact_mod_cast lt_pow_length_digitsOf d.digits
  rw [zpow_add₀ (by norm_num), zpow_natCast]
  exact mul_lt_mul_of_pos_right hlt (by positivity)

end Decimal

namespace Binary

variable {f : BinaryFormat}

/-- Whether a number is finite. -/
def IsFinite (x : Binary f) : Prop := ∃ y, x = .finite y

/-- A rank stands for a finite number exactly if it is below that of infinity. -/
private theorem isFinite_ofRank {negative : Bool} {rank : Nat} :
    (ofRank f negative rank).IsFinite ↔ rank < f.infinityRank := by
  unfold ofRank IsFinite
  split
  case isTrue h => simp [h]
  case isFalse h => simp [h]

/-- A quotient is rounded to a finite number exactly if it is below the threshold. -/
theorem isFinite_ofRatio (hf : 2 ≤ f.exponentBits) (negative : Bool) {num den : Nat}
    (hden : 0 < den) : (ofRatio f negative num den).IsFinite ↔
      (num : ℚ) / den < f.overflowThreshold := by
  rw [ofRatio, isFinite_ofRank, BinaryFormat.nearest_lt_infinityRank_iff hf hden]

/-- A number of one format becomes a finite number of another if its magnitude is below the
threshold. -/
theorem isFinite_convert {g : BinaryFormat} (hg : 2 ≤ g.exponentBits) (x : Finite f) :
    (convert g (.finite x)).IsFinite ↔ |x.value| < g.overflowThreshold := by
  have habs : |x.value| = (x.units : ℚ) / (2 ^ f.scale : Nat) := by
    rw [x.abs_value, BinaryFormat.value]
    push_cast
    rfl
  rw [convert, isFinite_ofRatio hg _ (Nat.two_pow_pos _), habs]

/-- A decimal is rounded to a finite number exactly if it is below the threshold. -/
theorem isFinite_ofDecimal (hf : 2 ≤ f.exponentBits) (negative : Bool) (d : Decimal) :
    (ofDecimal f negative d).IsFinite ↔ d.value < f.overflowThreshold := by
  have hone := BinaryFormat.one_le_overflowThreshold (f := f)
  -- Zero is finite in every format.
  have hzero : (ofRank f negative 0).IsFinite := by
    rw [isFinite_ofRank, BinaryFormat.infinityRank_eq hf]
    exact Nat.mul_pos (by omega) f.binadeSize_pos
  unfold ofDecimal
  dsimp only
  split_ifs with hdigits hlarge hsmall
  -- No digits: the decimal is zero.
  · rw [Decimal.value, hdigits, Nat.cast_zero, zero_mul]
    exact iff_of_true hzero (by linarith)
  · -- The power of ten alone is beyond the threshold.
    have hinfinite : ¬(infinite negative : Binary f).IsFinite := by rintro ⟨y, hy⟩; cases hy
    refine iff_of_false hinfinite (not_lt.2 ?_)
    have hpos : (1 : ℚ) ≤ d.digits := by exact_mod_cast Nat.one_le_iff_ne_zero.2 hdigits
    calc f.overflowThreshold ≤ 10 ^ (2 ^ f.exponentBits) := BinaryFormat.overflowThreshold_le hf
      _ = (10 : ℚ) ^ ((2 ^ f.exponentBits : Nat) : Int) := (zpow_natCast _ _).symm
      _ ≤ 10 ^ d.exponent := zpow_le_zpow_right₀ (by norm_num) (by push_cast; omega)
      _ ≤ d.digits * 10 ^ d.exponent := le_mul_of_one_le_left (by positivity) hpos
  · -- The decimal is less than one.
    refine iff_of_true hzero ?_
    calc d.value < (10 : ℚ) ^ ((Decimal.digitsOf d.digits).length + d.exponent) := d.value_lt
      _ < 10 ^ (0 : Int) := by
          have : (0 : Int) < 2 ^ f.exponentBits := by positivity
          exact zpow_lt_zpow_right₀ (by norm_num) (by omega)
      _ ≤ f.overflowThreshold := by simpa using hone
  -- Otherwise the decimal is rounded as the quotient it is.
  · rw [isFinite_ofRatio hf _ d.ratio_pos, d.ratio_eq]

end Binary

end GraphCodec
