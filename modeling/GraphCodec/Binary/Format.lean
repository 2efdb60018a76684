import GraphCodec.Decimal.Basic

/-!
# Binary floating-point formats

A format is fixed by the number of bits of its fraction and of its exponent.  The non-negative
numbers of a format are counted upwards from zero, and a number is named by its **rank** in that
count: zero has rank 0, the least positive number rank 1, and infinity comes directly after the
greatest finite number.  Ranks are the interchange bit patterns without their sign bit.

Every finite number is a whole multiple of the least positive one, so `units` gives its exact
value as a natural number, and `nearest` rounds an exact quotient to the rank of the closest
number, a tie going to the even rank.  All arithmetic of the library goes through these two.
-/

namespace GraphCodec

/-- A binary interchange format, by the widths of its fraction and exponent fields. -/
structure BinaryFormat where
  fractionBits : Nat
  exponentBits : Nat
deriving DecidableEq, Repr

/-- Double precision. -/
def binary64 : BinaryFormat := ⟨52, 11⟩

/-- Single precision. -/
def binary32 : BinaryFormat := ⟨23, 8⟩

namespace BinaryFormat

/-- The least positive number of the format is `2 ^ (-scale)`. -/
def scale (f : BinaryFormat) : Nat := 2 ^ (f.exponentBits - 1) - 2 + f.fractionBits

/-- The rank of infinity: every smaller rank is a finite number. -/
def infinityRank (f : BinaryFormat) : Nat := (2 ^ f.exponentBits - 1) * 2 ^ f.fractionBits

/-- The binade of a rank: numbers of one binade are evenly spaced, and each binade after the
first has twice the spacing of the one before. -/
def binade (f : BinaryFormat) (rank : Nat) : Nat := rank / 2 ^ f.fractionBits - 1

/-- The number with this rank, counted in multiples of the least positive number. -/
def units (f : BinaryFormat) (rank : Nat) : Nat :=
  (rank - f.binade rank * 2 ^ f.fractionBits) * 2 ^ f.binade rank

end BinaryFormat

/-- The whole number closest to `num / den`; a tie goes to the even neighbour. -/
def roundHalfEven (num den : Nat) : Nat :=
  let q := num / den
  let twice := 2 * (num % den)
  if twice < den ∨ (twice = den ∧ q % 2 = 0) then q else q + 1

/-- The whole number closest to `num / den`; a tie goes up. -/
def roundHalfUp (num den : Nat) : Nat :=
  (2 * num + den) / (2 * den)

namespace BinaryFormat

/-- The rank of the number of the format closest to `num / den`, a tie going to the even rank.
The exponent is not bounded here: from `infinityRank` on the quotient is too large. -/
def nearest (f : BinaryFormat) (num den : Nat) : Nat :=
  let whole := num * 2 ^ f.scale / den
  let binade := whole.log2 - f.fractionBits
  binade * 2 ^ f.fractionBits + roundHalfEven (num * 2 ^ f.scale) (den * 2 ^ binade)

end BinaryFormat

end GraphCodec
