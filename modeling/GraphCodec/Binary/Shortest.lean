import GraphCodec.Binary.Basic
import GraphCodec.Decimal.Basic

/-!
# The shortest decimal that reads back

`Finite.shortest` gives a number its shortest decimal form: of all decimals that round to the
number it takes those with the fewest digits, and of these the nearest one, a tie going to the
even last digit.

The reals that round to the number of rank `r` lie between the midpoints to its two neighbours;
the midpoints themselves round to it exactly when `r` is even.  The search goes down the decimal
grids `10 ^ j` and stops at the first grid with a point in that interval.  Whenever a point of a
grid lies in the interval so does one of the number's two neighbours on that grid, so only those
are looked at.
-/

namespace GraphCodec

namespace BinaryFormat

/-- The reals that round to a number, in halves of the format's least positive number. -/
structure RoundingInterval where
  low : Nat
  value : Nat
  high : Nat
  closed : Bool

/-- The interval of reals that round to the number with this rank. -/
def roundingInterval (f : BinaryFormat) (rank : Nat) : RoundingInterval where
  low := f.units (rank - 1) + f.units rank
  value := 2 * f.units rank
  high := f.units rank + f.units (rank + 1)
  closed := rank % 2 == 0

/-- Whether `num / den` lies in the interval. -/
def RoundingInterval.contains (i : RoundingInterval) (num den : Nat) : Bool :=
  if i.closed then i.low * den ≤ num && num ≤ i.high * den
  else i.low * den < num && num < i.high * den

/-- The points of the grid `10 ^ j` next to the value that lie in its rounding interval, the
nearer one first and of two equally near ones the even one first. -/
def gridPoints (f : BinaryFormat) (i : RoundingInterval) (j : Int) : List Nat :=
  -- One step of the grid is `stepNum / stepDen` halves of the least positive number.
  let stepNum := 2 ^ (f.scale + 1) * 10 ^ j.toNat
  let stepDen := 10 ^ (-j).toNat
  let below := i.value * stepDen / stepNum
  let nearer := roundHalfEven (i.value * stepDen) stepNum
  let other := if nearer = below then below + 1 else below
  [nearer, other].filter fun d => d ≠ 0 && i.contains (d * stepNum) stepDen

/-- An exponent whose power of ten exceeds every number with this many bits of units. -/
def topExponent (f : BinaryFormat) (units : Nat) : Int :=
  ((units.log2 : Int) + 1 - f.scale) * 30103 / 100000 + 2

/-- The shortest decimal that rounds to the positive number with this rank. -/
def shortest (f : BinaryFormat) (rank : Nat) : Decimal :=
  let interval := f.roundingInterval rank
  let top := f.topExponent (f.units rank)
  let grids := (List.range 24).map fun (k : Nat) => top - k
  match grids.findSome? fun j => (f.gridPoints interval j).head?.map (⟨·, j⟩) with
  | some d => d
  | none => ⟨0, 0⟩

end BinaryFormat

/-- The shortest decimal that reads back as the magnitude of a finite number; of several the
nearest. -/
def Finite.shortest {f : BinaryFormat} (x : Finite f) : Decimal :=
  if x.isZero then ⟨0, 0⟩ else f.shortest x.rank

end GraphCodec
