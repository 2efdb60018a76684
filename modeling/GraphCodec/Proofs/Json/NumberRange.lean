import GraphCodec.Proofs.Binary.Rounding
import GraphCodec.Proofs.Json.Numbers

/-!
# Every number is written in range

The text of every finite number reads back as a number (`Number.isSome_reread?`), and an integer of
64 bits as itself (`Number.reread?_integer`).

A numeral is read with at most 64 bits of its digits, scaled by a rounded power of ten, so reading
can end above the number that was written: by three roundings, each of which is off by at most a
share `1 / 2P` (`scaled?_isSome_of_le`).  That keeps every double below infinity but the last two,
for which the text is read by computation (`isSome_reread?_top`).
-/

namespace GraphCodec

namespace Decimal

/-- Digits behind digits. -/
theorem ofDigits_append (a b : List Nat) :
    ofDigits (a ++ b) = b.foldl (fun n d => 10 * n + d) (ofDigits a) := by
  rw [ofDigits, List.foldl_append, ofDigits]

/-- Digits behind a number move it up. -/
theorem foldl_digits (n : Nat) (ds : List Nat) :
    ds.foldl (fun n d => 10 * n + d) n = n * 10 ^ ds.length + ofDigits ds := by
  induction ds generalizing n with
  | nil => simp [ofDigits]
  | cons d ds ih =>
    have h0 : ofDigits (d :: ds) = (10 * 0 + d) * 10 ^ ds.length + ofDigits ds := ih (10 * 0 + d)
    rw [List.foldl_cons, ih, List.length_cons, Nat.pow_succ, h0]
    grind

/-- The first digits of a number, moved up again, are at most the number. -/
private theorem ofDigits_take_le (k : Nat) (ds : List Nat) :
    ofDigits (ds.take k) * 10 ^ (ds.length - k) ≤ ofDigits ds := by
  have h := ofDigits_append (ds.take k) (ds.drop k)
  rw [List.take_append_drop, foldl_digits, List.length_drop] at h
  rw [h]
  exact Nat.le_add_right _ _

/-- A bound on the number that digits denote, by their count. -/
theorem ofDigits_lt {ds : List Nat} (h : ∀ d ∈ ds, d < 10) : ofDigits ds < 10 ^ ds.length := by
  induction ds with
  | nil => simp [ofDigits]
  | cons d ds ih =>
    have hd := h d List.mem_cons_self
    have ih := ih fun e he => h e (List.mem_cons_of_mem d he)
    -- The first digit stands in front of all others.
    have h0 : ofDigits (d :: ds) = d * 10 ^ ds.length + ofDigits ds := by
      rw [ofDigits, List.foldl_cons, foldl_digits, Nat.mul_zero, Nat.zero_add]
    rw [h0, List.length_cons, Nat.pow_succ]
    generalize 10 ^ ds.length = p at *
    have : d * p ≤ 9 * p := Nat.mul_le_mul_right p (by omega)
    omega

/-- A digit is less than ten. -/
theorem digitValue_lt {c : Char} (h : IsDigit c) : digitValue c < 10 := by
  have ⟨_, hhi⟩ := h.toNat_bounds
  have h0 : digitValue c = c.toNat - 48 := rfl
  omega

end Decimal

namespace Json.Number

open Decimal

/-! ### The digits that are kept -/

/-- Appending stops at some digit, and the digits before it make up the significand. -/
theorem appendDigits_eq {s : Nat} (hs : s < 2 ^ (64 : Nat)) (ds : List Nat) :
    ∃ kept ≤ ds.length, ∃ sig < 2 ^ (64 : Nat), appendDigits s ds = (sig, ds.drop kept) ∧
      sig = (ds.take kept).foldl (fun n d => 10 * n + d) s := by
  induction ds generalizing s with
  | nil => exact ⟨0, Nat.le_refl _, s, hs, rfl, rfl⟩
  | cons d ds ih =>
    rw [appendDigits]
    -- The digit fits and is appended, or appending stops in front of it.
    by_cases h : 10 * s + d < 2 ^ (64 : Nat)
    · obtain ⟨kept, hkept, sig, hsig, heq, hfold⟩ := ih h
      exact ⟨kept + 1, Nat.succ_le_succ hkept, sig, hsig, by rw [if_pos h, heq]; rfl, hfold⟩
    · exact ⟨0, Nat.zero_le _, s, hs, by rw [if_neg h]; rfl, rfl⟩

/-- Digits whose number fits are all kept. -/
theorem appendDigits_of_lt {s : Nat} {ds : List Nat}
    (h : ds.foldl (fun n d => 10 * n + d) s < 2 ^ (64 : Nat)) :
    appendDigits s ds = (ds.foldl (fun n d => 10 * n + d) s, []) := by
  induction ds generalizing s with
  | nil => rfl
  | cons d ds ih =>
    rw [List.foldl_cons] at h
    -- Further digits only make the number greater.
    have hd : 10 * s + d < 2 ^ (64 : Nat) := by
      rw [foldl_digits] at h
      have : 10 * s + d ≤ (10 * s + d) * 10 ^ ds.length :=
        Nat.le_mul_of_pos_right _ (Nat.pow_pos (by decide))
      omega
    rw [appendDigits, if_pos hd, ih h, List.foldl_cons]

/-- A numeral whose whole part fits into 64 bits is in range if its digits, cut off anywhere behind
the point, are. -/
private theorem isSome_ofNumeral? {n : Numeral} (hwhole : ofDigits n.whole < 2 ^ (64 : Nat))
    (h : ∀ kept ≤ n.fraction.length, ∀ sig < 2 ^ (64 : Nat),
      sig = ofDigits (n.whole ++ n.fraction.take kept) →
      (scaled? n.negative sig (n.exponent.getD 0 - kept)).isSome) :
    (ofNumeral? n).isSome := by
  obtain ⟨kept, hkept, sig, hsig, heq, hfold⟩ := appendDigits_eq hwhole n.fraction
  rw [← ofDigits_append] at hfold
  have hscaled := h kept hkept sig hsig hfold
  -- The exponent counts back from the end of the digits that are kept.
  have hexp : ((0 : Nat) : Int) - ((n.fraction.length : Int) - (n.fraction.length - kept : Nat)) +
      n.exponent.getD 0 = n.exponent.getD 0 - kept := by
    omega
  unfold ofNumeral?
  rw [appendDigits_of_lt hwhole, ← ofDigits]
  dsimp only
  rw [heq]
  simp only [List.length_nil, List.length_drop, hexp]
  -- Integers are in range, and so are doubles by assumption.
  split
  · rfl
  · split
    · rfl
    · rw [Option.isSome_map]
      exact hscaled

/-! ### Powers of ten -/

/-- A power of ten is at least one. -/
theorem le_units_powerOfTen (k : Nat) : 2 ^ binary64.scale ≤ binary64.units (powerOfTen k) := by
  apply binary64.pow_le_units_nearest _ Nat.one_pos
  exact Nat.mul_le_mul_right _ (Nat.pow_pos (by decide))

/-- A power of ten is at least two, but for the first. -/
private theorem two_le_units_powerOfTen {k : Nat} (hk : 0 < k) :
    2 * 2 ^ binary64.scale ≤ binary64.units (powerOfTen k) := by
  have hten : 2 ≤ 10 ^ k := Nat.le_trans (by decide) (Nat.pow_le_pow_right (by decide) hk)
  rw [← Nat.pow_succ']
  apply binary64.pow_le_units_nearest _ Nat.one_pos
  rw [Nat.one_mul, Nat.pow_succ']
  exact Nat.mul_le_mul_right _ hten

/-- A divisor `d` that is at least two, in units of which one is `S`, makes up for the rounding of
the quotient `q` of `n`. -/
private theorem quotient_le {d q n S : Nat} (hS : 0 < S) (hd : 2 * S ≤ d)
    (h : d * q ≤ 2 * (n * S)) : q ≤ n := by
  have hmul : 2 * S * q ≤ 2 * S * n := by
    calc 2 * S * q ≤ d * q := Nat.mul_le_mul_right _ hd
      _ ≤ 2 * (n * S) := h
      _ = 2 * S * n := by grind
  exact Nat.le_of_mul_le_mul_left hmul (by omega)

/-- A power of two that is far below the greatest finite number, in units of which one is `2 ^ u`,
is below the midpoint of that number and its successor. -/
private theorem pow_lt_midpoint {e : Nat} (u : Nat) (he : e < 2 ^ binary64.exponentBits - 3) :
    2 * (2 ^ e * 2 ^ u) <
      (4 * binary64.binadeSize - 1) * (2 ^ u * 2 ^ (2 ^ binary64.exponentBits - 3 : Nat)) := by
  have hpow : 2 ^ (e + 1) ≤ 2 ^ (2 ^ binary64.exponentBits - 3 : Nat) :=
    Nat.pow_le_pow_right (by decide) he
  calc 2 * (2 ^ e * 2 ^ u) = 2 ^ u * 2 ^ (e + 1) := by rw [Nat.pow_succ]; grind
    _ ≤ 2 ^ u * 2 ^ (2 ^ binary64.exponentBits - 3 : Nat) := Nat.mul_le_mul_left _ hpow
    _ < (4 * binary64.binadeSize - 1) * (2 ^ u * 2 ^ (2 ^ binary64.exponentBits - 3 : Nat)) := by
      have hpos := Nat.mul_pos (Nat.two_pow_pos u) (Nat.two_pow_pos (2 ^ binary64.exponentBits - 3))
      exact (Nat.lt_mul_iff_one_lt_left hpos).2 (by decide)

/-- Dividing what is far below the greatest finite number by a power of ten does not get out of
range. -/
private theorem divideByPower_lt {rank e : Nat} (hfar : e < 2 ^ binary64.exponentBits - 3)
    (exponent : Nat) (h : binary64.units rank ≤ 2 ^ e) :
    divideByPower rank exponent < binary64.infinityRank := by
  induction rank, exponent using divideByPower.induct with
  -- One division is enough, nothing is left to divide, or a division by the largest power comes
  -- first.
  | case1 rank exponent he =>
    rw [divideByPower, if_pos he]
    have hpower := le_units_powerOfTen exponent
    have hone : 0 < 2 ^ binary64.scale := Nat.two_pow_pos _
    have hpos := Nat.lt_of_lt_of_le hone hpower
    have hmid := pow_lt_midpoint binary64.scale hfar
    refine binary64.nearest_lt_infinityRank _ (by decide) hpos ?_
    calc 2 * (binary64.units rank * 2 ^ binary64.scale)
        ≤ 2 * (2 ^ e * 2 ^ binary64.scale) :=
          Nat.mul_le_mul_left _ (Nat.mul_le_mul_right _ h)
      _ < (4 * binary64.binadeSize - 1) *
            (2 ^ binary64.scale * 2 ^ (2 ^ binary64.exponentBits - 3 : Nat)) := hmid
      _ ≤ _ := Nat.mul_le_mul_left _ (Nat.mul_le_mul_right _ hpower)
  | case2 exponent he =>
    rw [divideByPower, if_neg he, if_pos rfl]
    decide
  | case3 rank exponent he hrank ih =>
    rw [divideByPower, if_neg he, if_neg hrank]
    -- One division does not enlarge what is divided, so the bound is kept.
    have htwo := two_le_units_powerOfTen (k := 308) (by decide)
    have hone : 0 < 2 ^ binary64.scale := Nat.two_pow_pos _
    have hpos := Nat.lt_of_lt_of_le (Nat.mul_pos Nat.two_pos hone) htwo
    have hround := binary64.units_nearest_le_double (binary64.units rank) hpos
    exact ih (Nat.le_trans (quotient_le hone htwo hround) h)

/-! ### Scaling -/

/-- A significand of 64 bits is far below the greatest finite number. -/
private theorem exists_units_significand_le {sig : Nat} (hsig : sig < 2 ^ (64 : Nat)) :
    ∃ e : Nat, e + 1 < 2 ^ binary64.exponentBits - 3 ∧
      binary64.units (binary64.nearest sig 1) ≤ 2 ^ e := by
  refine ⟨1 + (64 + binary64.scale), by decide, ?_⟩
  -- Rounding at most doubles the significand.
  have h := binary64.units_nearest_le_double sig Nat.one_pos
  rw [Nat.one_mul] at h
  calc binary64.units (binary64.nearest sig 1) ≤ 2 * (sig * 2 ^ binary64.scale) := h
    _ ≤ 2 * (2 ^ (64 : Nat) * 2 ^ binary64.scale) :=
      Nat.mul_le_mul_left _ (Nat.mul_le_mul_right _ (Nat.le_of_lt hsig))
    _ = 2 ^ (1 + (64 + binary64.scale)) := by rw [Nat.pow_add, Nat.pow_add 2 64, Nat.pow_one]

/-- Multiplying by a power of ten does not get out of range while the product stays below the
midpoint of the greatest finite number and its successor. -/
theorem multiplyByPower?_lt {rank k : Nat} (hk : k ≤ 308)
    (h : 2 * (binary64.units rank * binary64.units (powerOfTen k) * 2 ^ binary64.scale) <
      (4 * binary64.binadeSize - 1) *
        (2 ^ (2 * binary64.scale) * 2 ^ (2 ^ binary64.exponentBits - 3 : Nat))) :
    ∃ r, multiplyByPower? rank k = some r ∧ r < binary64.infinityRank := by
  -- Zero stays zero, and any other product is rounded once.
  by_cases h0 : rank = 0
  · exact ⟨0, by rw [multiplyByPower?, if_pos h0], by decide⟩
  · have hpos : 0 < 2 ^ (2 * binary64.scale) := Nat.two_pow_pos _
    have hlt := binary64.nearest_lt_infinityRank _ (by decide) hpos h
    exact ⟨_, by rw [multiplyByPower?, if_neg h0, if_neg (Nat.not_lt.2 hk)], hlt⟩

/-- A product that is finite makes a number. -/
private theorem isSome_of_product {negative : Bool} {sig : Nat} {exponent : Int}
    (he : 0 ≤ exponent)
    (h : ∃ r, multiplyByPower? (binary64.nearest sig 1) exponent.toNat = some r ∧
      r < binary64.infinityRank) : (scaled? negative sig exponent).isSome := by
  obtain ⟨r, hr, hlt⟩ := h
  simp only [scaled?, if_pos he, hr, Option.bind_eq_bind, Option.bind_some, dif_pos hlt,
    Option.isSome_some]

/-- A quotient that is finite makes a number. -/
private theorem isSome_of_quotient {negative : Bool} {sig : Nat} {exponent : Int}
    (he : exponent < 0)
    (hlt : divideByPower (binary64.nearest sig 1) (-exponent).toNat < binary64.infinityRank) :
    (scaled? negative sig exponent).isSome := by
  simp only [scaled?, if_neg (Int.not_le.2 he), Option.bind_eq_bind, Option.bind_some, dif_pos hlt,
    Option.isSome_some]

/-- A significand of 64 bits that is not scaled up is in range. -/
private theorem scaled?_isSome_of_nonpos {negative : Bool} {sig : Nat} {exponent : Int}
    (hsig : sig < 2 ^ (64 : Nat)) (he : exponent ≤ 0) : (scaled? negative sig exponent).isSome := by
  obtain ⟨e, hfar, hunits⟩ := exists_units_significand_le hsig
  -- Scaled down, or not scaled at all.
  rcases Int.lt_or_eq_of_le he with hneg | rfl
  · exact isSome_of_quotient hneg (divideByPower_lt (Nat.lt_of_succ_lt hfar) _ hunits)
  · refine isSome_of_product (Int.le_refl 0) (multiplyByPower?_lt (by decide) ?_)
    -- A power of ten is rounded as well, even the first one.
    have hone : binary64.units (powerOfTen (Int.toNat 0)) ≤ 2 * 2 ^ binary64.scale := by
      have h := binary64.units_nearest_le_double (10 ^ (0 : Nat)) Nat.one_pos
      rwa [Nat.pow_zero, Nat.one_mul, Nat.one_mul] at h
    have hmid := pow_lt_midpoint (2 * binary64.scale) hfar
    refine Nat.lt_of_le_of_lt ?_ hmid
    rw [Nat.two_mul binary64.scale, Nat.pow_add 2 binary64.scale]
    generalize 2 ^ binary64.scale = S at *
    calc 2 * (binary64.units (binary64.nearest sig 1) *
            binary64.units (powerOfTen (Int.toNat 0)) * S)
        ≤ 2 * (2 ^ e * (2 * S) * S) :=
          Nat.mul_le_mul_left _ (Nat.mul_le_mul_right _ (Nat.mul_le_mul hunits hone))
      _ = 2 * (2 ^ (e + 1) * (S * S)) := by rw [Nat.pow_succ]; grind

/-- The significand `a` of `sig` times the power `b` of `p`, each rounded up by at most a share of
`1 / Q`, in units of which one is `S`. -/
private theorem rounded_product_le {a b sig p S Q H : Nat}
    (ha : a * Q ≤ sig * S * (Q + 1)) (hb : b * Q ≤ p * S * (Q + 1)) (h : sig * p * (2 * S) ≤ H) :
    Q * Q * (2 * (a * b * S)) ≤ H * (S * S * ((Q + 1) * (Q + 1))) := by
  calc Q * Q * (2 * (a * b * S)) = 2 * S * (a * Q * (b * Q)) := by grind
    _ ≤ 2 * S * (sig * S * (Q + 1) * (p * S * (Q + 1))) :=
      Nat.mul_le_mul_left _ (Nat.mul_le_mul ha hb)
    _ = sig * p * (2 * S) * (S * S * ((Q + 1) * (Q + 1))) := by grind
    _ ≤ H * (S * S * ((Q + 1) * (Q + 1))) := Nat.mul_le_mul_right _ h

/-- Twice the units of the midpoint of the third but last double and its successor. -/
private def safeLimit : Nat :=
  (4 * binary64.binadeSize - 5) * 2 ^ (2 ^ binary64.exponentBits - 3 : Nat)

/-- A positive number that is scaled up is at least as large as a smaller power of ten. -/
private theorem scaled_power_le {sig m k unit limit : Nat} (hsig : 0 < sig) (hm : m ≤ k)
    (h : sig * 10 ^ k * unit ≤ limit) : 10 ^ m * unit ≤ limit := by
  calc 10 ^ m * unit
      ≤ 10 ^ k * unit := Nat.mul_le_mul_right _ (Nat.pow_le_pow_right (by decide) hm)
    _ ≤ sig * 10 ^ k * unit := Nat.mul_le_mul_right _ (Nat.le_mul_of_pos_left _ hsig)
    _ ≤ limit := h

/-- A significand that is scaled up is in range if the exact product is at most the midpoint of the
third but last double and its successor. -/
private theorem scaled?_isSome_of_le {negative : Bool} {sig k : Nat}
    (h : sig * 10 ^ k * (2 * 2 ^ binary64.scale) ≤ safeLimit) :
    (scaled? negative sig k).isSome := by
  refine isSome_of_product (Int.natCast_nonneg k) ?_
  rw [Int.toNat_natCast]
  rcases Nat.eq_zero_or_pos sig with rfl | hsig
  · exact ⟨0, by rw [multiplyByPower?, if_pos (binary64.nearest_zero 1)], by decide⟩
  · have hk : k ≤ 308 := by
      refine Nat.le_of_not_lt fun hk => ?_
      -- Already one times such a power is too large.
      have hle := scaled_power_le hsig hk h
      exact absurd hle (by decide +kernel)
    refine multiplyByPower?_lt hk ?_
    have hstart := binary64.units_nearest_le sig Nat.one_pos (Or.inr rfl)
    have hpower := binary64.units_nearest_le (10 ^ k) Nat.one_pos (Or.inr rfl)
    rw [Nat.one_mul] at hstart hpower
    refine Nat.lt_of_mul_lt_mul_left
      (Nat.lt_of_le_of_lt (rounded_product_le hstart hpower h) ?_)
    decide +kernel

/-! ### The text of a decimal number -/

/-- The first digits of a decimal number, scaled up to its magnitude, are at most the number:
`S` is the unit that the bound `high` is counted in. -/
private theorem leading_digits_le {d : Decimal} {sig m k S high : Nat}
    (h : d.digits * (S * 10 ^ d.exponent.toNat) ≤ high * 10 ^ (-d.exponent).toNat)
    (hsig : sig * 10 ^ m ≤ d.digits) (hk : (k : Int) = d.exponent + m) :
    sig * 10 ^ k * S ≤ high := by
  -- One of the two powers of ten is one, whatever the sign of the exponent.
  by_cases he : 0 ≤ d.exponent
  · have hneg : (-d.exponent).toNat = 0 := by omega
    have hkm : k = m + d.exponent.toNat := by omega
    rw [hneg, Nat.pow_zero, Nat.mul_one] at h
    rw [hkm, Nat.pow_add]
    calc sig * (10 ^ m * 10 ^ d.exponent.toNat) * S
        = sig * 10 ^ m * (S * 10 ^ d.exponent.toNat) := by grind
      _ ≤ d.digits * (S * 10 ^ d.exponent.toNat) := Nat.mul_le_mul_right _ hsig
      _ ≤ high := h
  · have hpos : d.exponent.toNat = 0 := by omega
    have hkm : m = k + (-d.exponent).toNat := by omega
    rw [hpos, Nat.pow_zero, Nat.mul_one] at h
    rw [hkm, Nat.pow_add] at hsig
    have hmul : sig * 10 ^ k * S * 10 ^ (-d.exponent).toNat ≤
        high * 10 ^ (-d.exponent).toNat := by
      calc sig * 10 ^ k * S * 10 ^ (-d.exponent).toNat
          = sig * (10 ^ k * 10 ^ (-d.exponent).toNat) * S := by grind
        _ ≤ d.digits * S := Nat.mul_le_mul_right _ hsig
        _ ≤ high * 10 ^ (-d.exponent).toNat := h
    exact Nat.le_of_mul_le_mul_right hmul (Nat.pow_pos (by decide))

/-- A number of at most sixteen digits fits into 64 bits. -/
private theorem ofDigits_lt_of_length {cs : List Char} (hcs : ∀ c ∈ cs, IsDigit c)
    (h : cs.length ≤ 16) : ofDigits (cs.map digitValue) < 2 ^ (64 : Nat) := by
  -- Each digit is below ten.
  have hlt := @ofDigits_lt (cs.map digitValue) fun d hd => by
    obtain ⟨c, hc, rfl⟩ := List.mem_map.1 hd
    exact digitValue_lt (hcs c hc)
  rw [List.length_map] at hlt
  calc ofDigits (cs.map digitValue) < 10 ^ cs.length := hlt
    _ ≤ 10 ^ (16 : Nat) := Nat.pow_le_pow_right (by decide) h
    _ ≤ 2 ^ (64 : Nat) := by decide

/-- The whole part of a positional text has the digits of its first place. -/
private theorem length_whole_positionalParts (negative : Bool) (d : Decimal) :
    ((DecimalLayout.positionalParts negative d).whole.length : Int) ≤
      max 1 (d.exponent + (digitsOf d.digits).length) := by
  unfold DecimalLayout.positionalParts
  dsimp only
  -- Zeros behind the digits, a point in them, or zeros in front of them.
  split
  · rw [List.length_append, List.length_replicate]
    omega
  · split
    · rw [List.length_take]
      omega
    · rw [List.length_singleton]
      omega

/-- A written exponent denotes itself. -/
private theorem exponentValue_digitsOf (i : Int) :
    NumberText.exponentValue (decide (i < 0), digitsOf i.natAbs) = i := by
  unfold NumberText.exponentValue
  simp only [ofDigits_digitsOf, decide_eq_true_eq]
  split <;> omega

/-- A decimal number is written in range if its first digits, scaled up to its magnitude, are in
range. -/
private theorem isSome_ofNumeral?_parts {l : DecimalLayout} (hl : l.greatest ≤ 15)
    {negative : Bool} {d : Decimal} (hd : d.IsNormal)
    (h : ∀ sig m k : Nat, sig * 10 ^ m ≤ d.digits → (k : Int) = d.exponent + m →
      (scaled? negative sig k).isSome) :
    (ofNumeral? (l.parts negative d).numeral).isSome := by
  unfold DecimalLayout.parts
  dsimp only
  by_cases hpos : l.least ≤ d.exponent + ((digitsOf d.digits).length - 1) ∧
      d.exponent + ((digitsOf d.digits).length - 1) ≤ l.greatest
  · -- Positionally the digits are only ever scaled down.
    rw [if_pos hpos]
    have hlength := length_whole_positionalParts negative d
    have hwf := DecimalLayout.wellFormed_positionalParts negative hd
    -- A positional text has no exponent.
    have hexp : (DecimalLayout.positionalParts negative d).exponent = none := by
      unfold DecimalLayout.positionalParts
      dsimp only
      split
      · rfl
      · split <;> rfl
    refine isSome_ofNumeral? (ofDigits_lt_of_length hwf.whole (by omega)) ?_
    intro kept _ sig hsig _
    refine scaled?_isSome_of_nonpos hsig ?_
    rw [NumberText.numeral, hexp]
    simp only [Option.map_none, Option.getD_none]
    omega
  -- Scientifically the exponent says how the digits are scaled.
  · rw [if_neg hpos]
    have hne := digitsOf_ne_nil d.digits
    have hlen : 0 < (digitsOf d.digits).length := List.length_pos_iff.2 hne
    have hvalue := ofDigits_digitsOf d.digits
    refine isSome_ofNumeral? (ofDigits_lt_of_length
      (fun c hc => isDigit_of_mem_digitsOf (List.mem_of_mem_take hc)) ?_) ?_
    · simp only [DecimalLayout.scientificParts, List.length_take]
      omega
    · intro kept hkept sig hsig hsigeq
      simp only [DecimalLayout.scientificParts, NumberText.numeral, Option.map_some,
        Option.getD_some, exponentValue_digitsOf, List.length_map, List.length_drop]
        at hkept hsigeq ⊢
      -- The digits that are kept are the first ones of the number.
      have htake : sig = ofDigits (((digitsOf d.digits).map digitValue).take (1 + kept)) := by
        rw [hsigeq, List.take_add, List.map_take, List.map_drop]
      have hle := ofDigits_take_le (1 + kept) ((digitsOf d.digits).map digitValue)
      rw [← htake, hvalue, List.length_map] at hle
      by_cases hnonpos : d.exponent + ((digitsOf d.digits).length - 1) - kept ≤ 0
      · exact scaled?_isSome_of_nonpos hsig hnonpos
      · obtain ⟨k, hk⟩ := Int.eq_ofNat_of_zero_le (Int.le_of_lt (Int.not_le.1 hnonpos))
        rw [hk]
        exact h sig _ k hle (by omega)

/-! ### Every number -/

/-- The shortest decimal form of a number is at most the midpoint to its successor. -/
private theorem shortest_le {f : BinaryFormat} (x : Finite f) :
    x.shortest.digits * (2 * 2 ^ f.scale * 10 ^ x.shortest.exponent.toNat) ≤
      (f.units x.rank + f.units (x.rank + 1)) * 10 ^ (-x.shortest.exponent).toNat := by
  unfold Finite.shortest
  -- Zero is its own text.
  split
  · simp
  · unfold BinaryFormat.shortest
    dsimp only
    -- A shortest text was found, or all digits are written.
    split
    case h_1 d hd =>
      obtain ⟨j, -, hj⟩ := List.exists_of_findSome?_eq_some hd
      obtain ⟨n, hn, rfl⟩ := Option.map_eq_some_iff.1 hj
      -- A grid point lies in the rounding interval, and that ends at the midpoint above.
      have hmem := List.mem_of_mem_head? hn
      unfold BinaryFormat.gridPoints at hmem
      have hcontains := (List.mem_filter.1 hmem).2
      simp only [Bool.and_eq_true, BinaryFormat.RoundingInterval.contains, Nat.pow_succ']
        at hcontains
      have hhigh := hcontains.2
      split at hhigh
      · simp only [Bool.and_eq_true, decide_eq_true_eq] at hhigh
        exact hhigh.2
      · simp only [Bool.and_eq_true, decide_eq_true_eq] at hhigh
        exact Nat.le_of_lt hhigh.2
    case h_2 => simp

/-- The text of one of the last two doubles reads back. -/
private theorem isSome_reread?_top : ∀ negative, ∀ k : Fin 2,
    (double ⟨negative, ⟨binary64.infinityRank - 1 - k,
      Nat.lt_of_le_of_lt (Nat.sub_le _ _) (by decide)⟩⟩).reread?.isSome := by
  decide +kernel

/-- The text of every double reads back. -/
theorem isSome_reread?_double (x : Finite binary64) : (double x).reread?.isSome := by
  have hinf : binary64.infinityRank = 2045 * binary64.binadeSize + 2 * binary64.binadeSize := by
    decide
  have hP : binary64.binadeSize = 2 ^ (52 : Nat) := rfl
  -- The two greatest doubles are too close to the limit for the bound and are checked alone.
  by_cases hrank : x.rank.val + 3 ≤ binary64.infinityRank
  · refine isSome_ofNumeral?_parts (by decide) x.isNormal_shortest fun sig m k hsig hk => ?_
    refine scaled?_isSome_of_le ?_
    have hunits : binary64.units x.rank ≤ _ := binary64.units_le (b := 2045)
      (m := 2 * binary64.binadeSize - 3) (by omega) (by omega) (by omega)
    have hunits' : binary64.units (x.rank + 1) ≤ _ := binary64.units_le (b := 2045)
      (m := 2 * binary64.binadeSize - 2) (by omega) (by omega) (by omega)
    -- The first digits are at most the number, which is at most the midpoint.
    refine Nat.le_trans (leading_digits_le (shortest_le x) hsig hk) ?_
    have hexp : 2 ^ binary64.exponentBits - 3 = 2045 := by decide
    refine Nat.le_trans (Nat.add_le_add hunits hunits') ?_
    rw [safeLimit, hexp, ← Nat.add_mul]
    exact Nat.mul_le_mul_right _ (by decide)
  -- The rank is one of the last two.
  · have htop := isSome_reread?_top x.negative
      ⟨binary64.infinityRank - 1 - x.rank, by omega⟩
    have hx : x = ⟨x.negative, ⟨binary64.infinityRank - 1 - (binary64.infinityRank - 1 - x.rank),
        Nat.lt_of_le_of_lt (Nat.sub_le _ _) (by decide)⟩⟩ := by
      obtain ⟨negative, ⟨rank, hlt⟩⟩ := x
      congr 2
      show rank = binary64.infinityRank - 1 - (binary64.infinityRank - 1 - rank)
      omega
    rw [hx]
    exact htop

/-- The text of every single reads back. -/
theorem isSome_reread?_single (x : Finite binary32) : (single x).reread?.isSome := by
  have hinf : binary32.infinityRank = 253 * binary32.binadeSize + 2 * binary32.binadeSize := by
    decide
  have hP : binary32.binadeSize = 2 ^ (23 : Nat) := rfl
  refine isSome_ofNumeral?_parts (by decide) x.isNormal_shortest fun sig m k hsig hk => ?_
  refine scaled?_isSome_of_le ?_
  have hunits : ∀ r, r ≤ binary32.infinityRank →
      binary32.units r ≤ 2 * binary32.binadeSize * 2 ^ (253 : Nat) := fun r hr =>
    binary32.units_le (by omega) (by omega) (by omega)
  have hlt := x.rank.isLt
  have hle := Nat.le_trans (leading_digits_le (shortest_le x) hsig hk)
    (Nat.add_le_add (hunits x.rank (by omega)) (hunits (x.rank + 1) (by omega)))
  -- A unit of singles is many units of doubles.
  obtain ⟨d, hscale, hd⟩ : ∃ d, binary64.scale = binary32.scale + d ∧
      253 + d ≤ 2 ^ binary64.exponentBits - 3 := ⟨925, by decide, by decide⟩
  rw [hscale, Nat.pow_add, ← Nat.mul_assoc 2, ← Nat.mul_assoc]
  refine Nat.le_trans (Nat.mul_le_mul_right _ hle) ?_
  rw [← Nat.add_mul, Nat.mul_assoc, ← Nat.pow_add]
  exact Nat.mul_le_mul (by decide) (Nat.pow_le_pow_right (by decide) hd)

/-- An integer that fits into 64 bits, signed or unsigned, reads back as itself. -/
theorem reread?_integer {i : Int} (hlow : -2 ^ (63 : Nat) ≤ i) (hhigh : i < 2 ^ (64 : Nat)) :
    (integer i).reread? = some (integer i) := by
  -- The digits denote the absolute value.
  have hlt : ofDigits ((digitsOf i.natAbs).map digitValue) < 2 ^ (64 : Nat) := by
    rw [ofDigits_digitsOf]
    omega
  have hread := appendDigits_of_lt hlt
  rw [← ofDigits, ofDigits_digitsOf] at hread
  unfold reread? ofNumeral?
  simp only [parts, NumberText.numeral, hread, Numeral.isInteger, List.map_nil, List.isEmpty_nil,
    Option.map_none, Option.isNone_none, Bool.and_self, Bool.true_and, Bool.not_eq_true',
    decide_eq_false_iff_not, Bool.and_eq_true, decide_eq_true_eq]
  -- A negative integer is read with its sign, and any other one as it is.
  by_cases hneg : i < 0
  · rw [if_neg (by omega), if_pos (by omega)]
    congr 2
    omega
  · rw [if_pos hneg]
    congr 2
    omega

/-- The text of every number that is not an integer of more than 64 bits reads back. -/
theorem isSome_reread? {n : Number}
    (h : ∀ i, n = integer i → -2 ^ (63 : Nat) ≤ i ∧ i < 2 ^ (64 : Nat)) :
    n.reread?.isSome := by
  cases n with
  | integer i =>
    obtain ⟨hlow, hhigh⟩ := h i rfl
    rw [reread?_integer hlow hhigh]
    rfl
  | double x => exact isSome_reread?_double x
  | single x => exact isSome_reread?_single x

end Json.Number

end GraphCodec
