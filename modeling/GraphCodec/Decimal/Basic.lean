/-!
# Decimal numbers and their digits

`Decimal` is a whole number of digits times a power of ten.  `digitValue?` reads one digit,
`ofDigits` the number that a list of digits denotes, and `digitsOf` writes a number back.
-/

namespace GraphCodec

-- Powers with a natural exponent mean the same in a module of this library whether or not it
-- imports an algebraic hierarchy.
attribute [scoped instance (20000)] instPowNat

/-- The decimal number `digits * 10 ^ exponent`. -/
structure Decimal where
  digits : Nat
  exponent : Int
deriving DecidableEq, Repr

namespace Decimal

/-- A numerator and a denominator of the value of a decimal. -/
def ratio (d : Decimal) : Nat × Nat :=
  (d.digits * 10 ^ d.exponent.toNat, 10 ^ (-d.exponent).toNat)

/-- The value of an ASCII digit. -/
def digitValue? (c : Char) : Option Nat :=
  if '0' ≤ c ∧ c ≤ '9' then some (c.toNat - '0'.toNat) else none

/-- The values of the digits, if every character is an ASCII digit. -/
def digitValues? (cs : List Char) : Option (List Nat) :=
  cs.mapM digitValue?

/-- The number that digit values denote, most significant first. -/
def ofDigits (ds : List Nat) : Nat :=
  ds.foldl (fun n d => 10 * n + d) 0

/-- The ASCII digits of a number, without leading zeros. -/
def digitsOf (n : Nat) : List Char :=
  Nat.toDigits 10 n

/-- The decimal text of an integer: a minus sign for a negative one, and its digits. -/
def intText (i : Int) : String :=
  String.ofList (if i < 0 then '-' :: digitsOf i.natAbs else digitsOf i.natAbs)

/-- The decimal text of a natural number. -/
def natText (n : Nat) : String :=
  String.ofList (digitsOf n)

/-- The last `width` or more digits of a number, filled up with zeros in front. -/
def padded (width n : Nat) : List Char :=
  let ds := digitsOf n
  List.replicate (width - ds.length) '0' ++ ds

end Decimal

end GraphCodec
