import GraphCodec.Binary.Basic

/-!
# Bounds on rounding

What `BinaryFormat.nearest` rounds to, in units of the format: never more than half a unit of its
binade above the quotient (`units_nearest_le`), so never more than a relative `2 ^ -53` above it for
double precision, and never infinity while the quotient stays below the midpoint of the greatest
finite number and its successor (`nearest_lt_infinityRank`).

Throughout, `P` is the number of ranks in a binade, and a rank is taken apart as `b * P + m`, binade
and multiple: `nearest` always rounds into a binade (`mantissa_le`) and fills it from its first rank
on (`le_mantissa`).
-/

namespace GraphCodec

/-- Rounding to a whole number goes up by at most one half. -/
private theorem roundHalfEven_le (num : Nat) {den : Nat} (hden : 0 < den) :
    2 * (den * roundHalfEven num den) ≤ 2 * num + den := by
  have hdiv := Nat.div_add_mod num den
  have hmod := Nat.mod_lt num hden
  unfold roundHalfEven
  dsimp only
  split
  case isTrue h =>
    have : den * (num / den) ≤ num := Nat.mul_div_le num den
    omega
  case isFalse h =>
    -- The remainder is at least one half.
    have hhalf : den ≤ 2 * (num % den) := by omega
    rw [Nat.mul_add, Nat.mul_one]
    omega

/-- Rounding to a whole number never goes below the whole part. -/
theorem le_roundHalfEven (num den : Nat) : num / den ≤ roundHalfEven num den := by
  unfold roundHalfEven
  dsimp only
  split <;> omega

/-- Rounding to a whole number never goes beyond the next one. -/
private theorem roundHalfEven_le_succ (num den : Nat) : roundHalfEven num den ≤ num / den + 1 := by
  unfold roundHalfEven
  dsimp only
  split <;> omega

/-- A whole number is rounded to itself. -/
private theorem roundHalfEven_one (num : Nat) : roundHalfEven num 1 = num := by
  simp [roundHalfEven, Nat.mod_one]

@[simp] theorem roundHalfEven_zero (den : Nat) : roundHalfEven 0 den = 0 := by
  have hden : 0 < den ∨ 0 = den := by omega
  simp [roundHalfEven, hden]

namespace BinaryFormat

variable (f : BinaryFormat)

/-- The number of ranks in a binade. -/
def binadeSize : Nat := 2 ^ f.fractionBits

theorem binadeSize_pos : 0 < f.binadeSize := Nat.two_pow_pos _

/-- The units of a rank, by its binade and its multiple of the binade's spacing. -/
theorem units_binade {b m : Nat} (hm : m ≤ 2 * f.binadeSize) (hb : b = 0 ∨ f.binadeSize ≤ m) :
    f.units (b * f.binadeSize + m) = m * 2 ^ b := by
  have hP := f.binadeSize_pos
  have hP2 : 2 ^ f.fractionBits = f.binadeSize := rfl
  unfold units binade
  rw [hP2]
  generalize f.binadeSize = P at *
  -- The quotient is that of the multiple, moved up by the binades below.
  have hdiv : (b * P + m) / P = b + m / P := by
    rw [Nat.mul_comm, Nat.mul_add_div hP]
  rw [hdiv]
  -- A multiple below `P` can only be in the first binade.
  rcases Nat.lt_or_ge m P with hlt | hge
  · have hb0 : b = 0 := by omega
    subst hb0
    rw [Nat.div_eq_of_lt hlt]
    simp
  · rcases Nat.lt_or_ge m (2 * P) with hlt2 | hge2
    -- A multiple in the second half of the range has the quotient one.
    · have h1 : m / P = 1 := Nat.div_eq_of_lt_le (by omega) (by omega)
      rw [h1, Nat.add_sub_cancel, Nat.add_sub_cancel_left]
    · have h2 : m = 2 * P := by omega
      -- The end of a binade is the beginning of the next.
      have hq : m / P = 2 := by rw [h2, Nat.mul_div_cancel _ hP]
      have hs : b + 2 - 1 = b + 1 := by omega
      have hr : b * P + m - (b + 1) * P = P := by
        rw [h2, Nat.add_mul]
        omega
      rw [hq, hs, hr, h2, Nat.pow_succ]
      grind

/-- The binade and the multiple of a rank. -/
private theorem exists_binade (rank : Nat) :
    ∃ b m, rank = b * f.binadeSize + m ∧ m < 2 * f.binadeSize ∧ (b = 0 ∨ f.binadeSize ≤ m) := by
  have hP := f.binadeSize_pos
  have hdiv := Nat.div_add_mod' rank f.binadeSize
  have hmod := Nat.mod_lt rank hP
  generalize f.binadeSize = P at *
  cases hq : rank / P with
  -- Below the first full binade the rank is the multiple itself.
  | zero =>
    rw [hq] at hdiv
    exact ⟨0, rank % P, by omega, by omega, Or.inl rfl⟩
  -- Every later binade starts at the multiple `P`.
  | succ q =>
    rw [hq, Nat.succ_mul] at hdiv
    exact ⟨q, P + rank % P, by omega, by omega, Or.inr (by omega)⟩

/-- The units of the ranks up to one whose binade and multiple are given. -/
theorem units_le {rank b m : Nat} (h : rank ≤ b * f.binadeSize + m) (hm : f.binadeSize ≤ m)
    (hm2 : m ≤ 2 * f.binadeSize) : f.units rank ≤ m * 2 ^ b := by
  obtain ⟨b', m', rfl, hlt, hb'⟩ := f.exists_binade rank
  rw [f.units_binade (Nat.le_of_lt hlt) hb']
  have hP := f.binadeSize_pos
  generalize f.binadeSize = P at *
  rcases Nat.lt_trichotomy b' b with hbb | rfl | hbb
  · -- A lower binade has at most half the spacing.
    calc m' * 2 ^ b' ≤ 2 * P * 2 ^ b' := Nat.mul_le_mul_right _ (Nat.le_of_lt hlt)
      _ = P * 2 ^ (b' + 1) := by rw [Nat.pow_succ]; grind
      _ ≤ P * 2 ^ b := Nat.mul_le_mul_left _ (Nat.pow_le_pow_right (by decide) hbb)
      _ ≤ m * 2 ^ b := Nat.mul_le_mul_right _ hm
  -- In the same binade the multiples are compared.
  · exact Nat.mul_le_mul_right _ (by omega)
  · -- Only the first number of the next binade is left, which is the end of this one.
    have hle : (b + 1) * P ≤ b' * P := Nat.mul_le_mul_right _ hbb
    rw [Nat.succ_mul] at hle
    have hm' : m' = P := by omega
    have hmm : m = 2 * P := by omega
    have hbP : b' * P = (b + 1) * P := by
      rw [Nat.succ_mul]
      omega
    rw [hm', hmm, Nat.eq_of_mul_eq_mul_right hP hbP, Nat.pow_succ]
    grind

@[simp] theorem units_zero : f.units 0 = 0 := by simp [units]

@[simp] theorem nearest_zero (den : Nat) : f.nearest 0 den = 0 := by
  simp [nearest]

section Nearest

variable (num : Nat) {den : Nat}

/-- The binade that a quotient is rounded in. -/
def targetBinade (num den : Nat) : Nat :=
  (num * 2 ^ f.scale / den).log2 - f.fractionBits

/-- The multiple of the binade's spacing that a quotient is rounded to. -/
def mantissa (num den : Nat) : Nat :=
  roundHalfEven (num * 2 ^ f.scale) (den * 2 ^ f.targetBinade num den)

theorem nearest_eq (den : Nat) :
    f.nearest num den = f.targetBinade num den * f.binadeSize + f.mantissa num den := rfl

/-- A quotient is less than the end of the binade it is rounded in. -/
theorem lt_targetBinade (hden : 0 < den) :
    num * 2 ^ f.scale < 2 * f.binadeSize * (den * 2 ^ f.targetBinade num den) := by
  -- The binary logarithm bounds the quotient from above by the next power of two.
  have hlog := Nat.lt_log2_self (n := num * 2 ^ f.scale / den)
  have hle : (num * 2 ^ f.scale / den).log2 + 1 ≤ f.fractionBits + f.targetBinade num den + 1 := by
    unfold targetBinade
    omega
  have hpow := Nat.lt_of_lt_of_le hlog (Nat.pow_le_pow_right (by decide : 0 < 2) hle)
  rw [Nat.div_lt_iff_lt_mul hden, Nat.pow_succ, Nat.pow_add, ← binadeSize] at hpow
  calc num * 2 ^ f.scale < f.binadeSize * 2 ^ f.targetBinade num den * 2 * den := hpow
    _ = 2 * f.binadeSize * (den * 2 ^ f.targetBinade num den) := by grind

/-- A quotient is at least the first number of the binade it is rounded in, unless that is the
first binade. -/
theorem targetBinade_le (hden : 0 < den) (hb : 0 < f.targetBinade num den) :
    f.binadeSize * (den * 2 ^ f.targetBinade num den) ≤ num * 2 ^ f.scale := by
  have hlog : f.fractionBits + f.targetBinade num den = (num * 2 ^ f.scale / den).log2 := by
    unfold targetBinade at hb ⊢
    omega
  -- In a later binade the quotient is not zero, so its logarithm bounds it from below.
  have hne : num * 2 ^ f.scale / den ≠ 0 := by
    intro h0
    rw [h0, Nat.log2_zero] at hlog
    omega
  have hpow := Nat.log2_self_le hne
  rw [← hlog, Nat.pow_add, ← binadeSize, Nat.le_div_iff_mul_le hden] at hpow
  calc f.binadeSize * (den * 2 ^ f.targetBinade num den)
      = f.binadeSize * 2 ^ f.targetBinade num den * den := by grind
    _ ≤ num * 2 ^ f.scale := hpow

/-- Rounding stays in its binade, or goes to the first number after it. -/
theorem mantissa_le (hden : 0 < den) : f.mantissa num den ≤ 2 * f.binadeSize := by
  have hlt := f.lt_targetBinade num hden
  have hq := (Nat.div_lt_iff_lt_mul (Nat.mul_pos hden (Nat.two_pow_pos _))).2 hlt
  exact Nat.le_trans (roundHalfEven_le_succ _ _) hq

/-- Rounding fills a binade from its first number on. -/
theorem le_mantissa (hden : 0 < den) :
    f.targetBinade num den = 0 ∨ f.binadeSize ≤ f.mantissa num den := by
  rcases Nat.eq_zero_or_pos (f.targetBinade num den) with h0 | hb
  · exact Or.inl h0
  · refine Or.inr (Nat.le_trans ?_ (le_roundHalfEven _ _))
    rw [Nat.le_div_iff_mul_le (Nat.mul_pos hden (Nat.two_pow_pos _))]
    exact f.targetBinade_le num hden hb

/-- The units of the number that a quotient is rounded to. -/
theorem units_nearest (hden : 0 < den) :
    f.units (f.nearest num den) = f.mantissa num den * 2 ^ f.targetBinade num den := by
  rw [nearest_eq]
  exact f.units_binade (f.mantissa_le num hden) (f.le_mantissa num hden)

/-- A quotient that is at least a power of two, in units of which one is the least positive number,
is rounded to at least that power. -/
theorem pow_le_units_nearest {e : Nat} (hden : 0 < den) (h : den * 2 ^ e ≤ num * 2 ^ f.scale) :
    2 ^ e ≤ f.units (f.nearest num den) := by
  rw [f.units_nearest num hden]
  by_cases hb : f.targetBinade num den ≤ e
  · -- The power is a multiple of the binade's spacing, and rounding does not pass it.
    have hpow : 2 ^ e = 2 ^ (e - f.targetBinade num den) * 2 ^ f.targetBinade num den := by
      rw [← Nat.pow_add, Nat.sub_add_cancel hb]
    rw [hpow]
    apply Nat.mul_le_mul_right
    apply Nat.le_trans _ (le_roundHalfEven _ _)
    rw [Nat.le_div_iff_mul_le (Nat.mul_pos hden (Nat.two_pow_pos _))]
    calc 2 ^ (e - f.targetBinade num den) * (den * 2 ^ f.targetBinade num den)
        = den * 2 ^ e := by rw [hpow]; grind
      _ ≤ num * 2 ^ f.scale := h
  · -- A binade above the power begins above it.
    have hm : f.binadeSize ≤ f.mantissa num den := (f.le_mantissa num hden).resolve_left (by omega)
    calc 2 ^ e ≤ 2 ^ f.targetBinade num den := Nat.pow_le_pow_right (by decide) (by omega)
      _ ≤ f.mantissa num den * 2 ^ f.targetBinade num den :=
        Nat.le_mul_of_pos_left _ (Nat.lt_of_lt_of_le f.binadeSize_pos hm)

/-- Rounding goes up by at most half a unit of the binade. -/
theorem mantissa_mul_le (hden : 0 < den) :
    2 * (den * 2 ^ f.targetBinade num den * f.mantissa num den) ≤
      2 * (num * 2 ^ f.scale) + den * 2 ^ f.targetBinade num den :=
  roundHalfEven_le _ (Nat.mul_pos hden (Nat.two_pow_pos _))

/-- Rounding at most doubles a quotient. -/
theorem units_nearest_le_double (hden : 0 < den) :
    den * f.units (f.nearest num den) ≤ 2 * (num * 2 ^ f.scale) := by
  rw [f.units_nearest num hden]
  have hround := f.mantissa_mul_le num hden
  generalize f.mantissa num den = m at *
  generalize f.targetBinade num den = b at *
  -- The mantissa is zero, or it is at least one.
  rcases Nat.eq_zero_or_pos m with h0 | hm
  · rw [h0]
    simp
  · -- A positive multiple means that the quotient is at least one half.
    have hone : den * 2 ^ b ≤ den * 2 ^ b * m := Nat.le_mul_of_pos_right _ hm
    have heq : den * (m * 2 ^ b) = den * 2 ^ b * m := by grind
    omega

/-- A quotient beyond the first binade is rounded up by less than the share that half a unit has in
a binade; so is a whole number. -/
theorem units_nearest_le (hden : 0 < den) (h : 0 < f.targetBinade num den ∨ den = 1) :
    den * f.units (f.nearest num den) * (2 * f.binadeSize) ≤
      num * 2 ^ f.scale * (2 * f.binadeSize + 1) := by
  rw [f.units_nearest num hden]
  rcases Nat.eq_zero_or_pos (f.targetBinade num den) with h0 | hb
  -- The two cases of the hypothesis: a whole number in the first binade, or a later binade.
  · have hden1 : den = 1 := by omega
    subst hden1
    -- In the first binade the spacing is one unit, and nothing is lost.
    have hm : f.mantissa num 1 = num * 2 ^ f.scale := by
      rw [mantissa, h0, Nat.pow_zero, Nat.mul_one, roundHalfEven_one]
    rw [hm, h0, Nat.pow_zero, Nat.mul_one, Nat.one_mul, Nat.mul_add, Nat.mul_one]
    exact Nat.le_add_right _ _
  -- Half a unit of the binade is at most the share of the first number in it.
  · have hround := f.mantissa_mul_le num hden
    have hlow := f.targetBinade_le num hden hb
    generalize f.mantissa num den = m at *
    generalize f.targetBinade num den = b at *
    generalize num * 2 ^ f.scale = n at *
    calc den * (m * 2 ^ b) * (2 * f.binadeSize)
        = 2 * (den * 2 ^ b * m) * f.binadeSize := by grind
      _ ≤ (2 * n + den * 2 ^ b) * f.binadeSize := Nat.mul_le_mul_right _ hround
      _ = 2 * f.binadeSize * n + f.binadeSize * (den * 2 ^ b) := by grind
      _ ≤ 2 * f.binadeSize * n + n := Nat.add_le_add_left hlow _
      _ = n * (2 * f.binadeSize + 1) := by grind

/-- A quotient below the midpoint of the greatest finite number and its successor is finite. -/
theorem nearest_lt_infinityRank (hf : 2 ≤ f.exponentBits) (hden : 0 < den)
    (h : 2 * (num * 2 ^ f.scale) <
      (4 * f.binadeSize - 1) * (den * 2 ^ (2 ^ f.exponentBits - 3 : Nat))) :
    f.nearest num den < f.infinityRank := by
  have hpow : 2 ^ (2 : Nat) ≤ 2 ^ f.exponentBits := Nat.pow_le_pow_right (by decide) hf
  have hP := f.binadeSize_pos
  -- The number of binades is named so that infinity is two binades behind the last one named.
  have hmul : 2 ^ f.exponentBits - 1 = (2 ^ f.exponentBits - 3) + 2 := by omega
  have hinf : f.infinityRank = (2 ^ f.exponentBits - 3 + 2) * f.binadeSize := by
    rw [infinityRank, hmul, binadeSize]
  rw [nearest_eq, hinf]
  have hm := f.mantissa_le num hden
  have hround := f.mantissa_mul_le num hden
  have hlow := f.targetBinade_le num hden
  generalize f.mantissa num den = m at *
  generalize f.targetBinade num den = b at *
  generalize num * 2 ^ f.scale = n at *
  generalize 2 ^ f.exponentBits - 3 = B at *
  generalize f.binadeSize = P at *
  rcases Nat.lt_trichotomy b B with hlt | rfl | hgt
  · -- A lower binade ends before infinity.
    calc b * P + m ≤ b * P + 2 * P := Nat.add_le_add_left hm _
      _ = (b + 2) * P := by grind
      _ < (B + 2) * P := Nat.mul_lt_mul_of_pos_right (by omega) hP
  · -- In the last binade only the last multiple would be infinity.
    have hd : 0 < den * 2 ^ b := Nat.mul_pos hden (Nat.two_pow_pos _)
    generalize den * 2 ^ b = d at *
    have hlt : d * (2 * m) < d * (4 * P) := by
      have hle : (4 * P - 1) * d + d = d * (4 * P) := by
        obtain ⟨k, hk⟩ : ∃ k, 4 * P = k + 1 := ⟨4 * P - 1, by omega⟩
        rw [hk, Nat.add_sub_cancel]
        grind
      have heq : 2 * (d * m) = d * (2 * m) := by grind
      omega
    have hm2 : 2 * m < 4 * P := Nat.lt_of_mul_lt_mul_left hlt
    calc b * P + m < b * P + 2 * P := Nat.add_lt_add_left (by omega) _
      _ = (b + 2) * P := by grind
  · -- A higher binade begins beyond the midpoint.
    exfalso
    have hlow := hlow (by omega)
    have hstep : den * 2 ^ B * 2 ≤ den * 2 ^ b := by
      have := Nat.pow_le_pow_right (by decide : 0 < 2) (show B + 1 ≤ b from hgt)
      calc den * 2 ^ B * 2 = den * 2 ^ (B + 1) := by rw [Nat.pow_succ]; grind
        _ ≤ den * 2 ^ b := Nat.mul_le_mul_left _ this
    generalize den * 2 ^ B = d at *
    generalize den * 2 ^ b = e at *
    have h1 : P * (d * 2) ≤ n := Nat.le_trans (Nat.mul_le_mul_left _ hstep) hlow
    have h2 : (4 * P - 1) * d ≤ 4 * P * d := Nat.mul_le_mul_right _ (Nat.sub_le _ _)
    have h3 : 4 * P * d = 2 * (P * (d * 2)) := by grind
    omega

end Nearest

end BinaryFormat

end GraphCodec
