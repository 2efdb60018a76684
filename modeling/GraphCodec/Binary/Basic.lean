import GraphCodec.Binary.Format

/-!
# Binary floating-point numbers

`Finite f` is a finite number of the format `f`: a sign and the rank of its magnitude.  `Binary f`
adds the infinities and the one value that is not a number.  Both are data with decidable
equality; the comparison of the arithmetic, for which the two zeros are one number and nothing
equals a value that is not a number, is `Binary.same`.
-/

namespace GraphCodec

/-- A finite number: its sign and the rank of its magnitude. -/
structure Finite (f : BinaryFormat) where
  negative : Bool
  rank : Fin f.infinityRank
deriving DecidableEq, Repr

/-- A number of the format `f`, an infinity, or not a number. -/
inductive Binary (f : BinaryFormat) where
  | nan
  | infinite (negative : Bool)
  | finite (x : Finite f)
deriving DecidableEq, Repr

/-- A double-precision number. -/
abbrev Double := Binary binary64

/-- A single-precision number. -/
abbrev Single := Binary binary32

namespace Finite

variable {f : BinaryFormat}

/-- The magnitude in multiples of the least positive number of the format. -/
def units (x : Finite f) : Nat := f.units x.rank

/-- Both zeros, whatever their sign. -/
def isZero (x : Finite f) : Bool := x.rank.val == 0

/-- Equality as numbers: the two zeros are equal. -/
def same (x y : Finite f) : Bool :=
  x.rank == y.rank && (x.negative == y.negative || x.isZero)

/-- The integer this number is, if it is whole. -/
def toInt? (x : Finite f) : Option Int :=
  if x.units % 2 ^ f.scale = 0 then
    let magnitude : Int := (x.units / 2 ^ f.scale : Nat)
    some (if x.negative then -magnitude else magnitude)
  else none

end Finite

namespace Binary

variable {f : BinaryFormat}

/-- The number with this sign and rank; a rank beyond the finite ones is an infinity. -/
def ofRank (f : BinaryFormat) (negative : Bool) (rank : Nat) : Binary f :=
  if h : rank < f.infinityRank then .finite ⟨negative, ⟨rank, h⟩⟩ else .infinite negative

/-- The number closest to `num / den` with the given sign. -/
def ofRatio (f : BinaryFormat) (negative : Bool) (num den : Nat) : Binary f :=
  ofRank f negative (f.nearest num den)

/-- The number closest to an integer. -/
def ofInt (f : BinaryFormat) (n : Int) : Binary f :=
  ofRatio f (decide (n < 0)) n.natAbs 1

/-- Positive zero. -/
def zero (f : BinaryFormat) : Binary f := ofRank f false 0

/-- Equality as numbers: the two zeros are equal, and a value that is not a number differs from
everything, itself included. -/
def same : Binary f → Binary f → Bool
  | .infinite s, .infinite t => s == t
  | .finite x, .finite y => x.same y
  | _, _ => false

/-- The finite number, if it is one. -/
def finite? : Binary f → Option (Finite f)
  | .finite x => some x
  | _ => none

/-- The closest number of another format; a magnitude too large for it becomes an infinity. -/
def convert (g : BinaryFormat) : Binary f → Binary g
  | .nan => .nan
  | .infinite s => .infinite s
  | .finite x => ofRatio g x.negative x.units (2 ^ f.scale)

/-- Reads the interchange bit pattern of a number: the sign bit on top of the rank. -/
def ofBits (f : BinaryFormat) (bits : Nat) : Binary f :=
  let signBit := 2 ^ (f.fractionBits + f.exponentBits)
  let rank := bits % signBit
  if f.infinityRank < rank then .nan else ofRank f (signBit ≤ bits) rank

/-- The interchange bit pattern of a number; `none` for a value that is not a number, which has
many. -/
def toBits? : Binary f → Option Nat
  | .nan => none
  | .infinite s => some (f.infinityRank + signBits s)
  | .finite x => some (x.rank.val + signBits x.negative)
where
  /-- The sign's share of the pattern. -/
  signBits (negative : Bool) : Nat :=
    if negative then 2 ^ (f.fractionBits + f.exponentBits) else 0

end Binary

end GraphCodec
