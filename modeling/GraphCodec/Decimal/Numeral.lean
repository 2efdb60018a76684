import GraphCodec.Decimal.Basic

/-!
# Numerals

A `Numeral` is a decimal number as it was written: its sign, the digits before and after the
point, and the exponent.  `Numeral.value` is the exact number it denotes.  `Numeral.read?` reads
the free form: an optional sign, digits with an optional point among or around them (at least one
digit in all), and an optional exponent.  `readInt?` reads an integer: an optional sign and at
least one digit.
-/

namespace GraphCodec

/-- A decimal number as written: digit values before and after the point, and the exponent, if
one is written. -/
structure Numeral where
  negative : Bool
  whole : List Nat
  fraction : List Nat
  exponent : Option Int
deriving DecidableEq, Repr

namespace Numeral

open Decimal

/-- The magnitude of the number that the numeral denotes. -/
def magnitude (n : Numeral) : Decimal :=
  ⟨ofDigits (n.whole ++ n.fraction), n.exponent.getD 0 - n.fraction.length⟩

/-- Whether the numeral has neither a fraction nor an exponent. -/
def isInteger (n : Numeral) : Bool := n.fraction.isEmpty && n.exponent.isNone

/-- Splits off a leading sign: whether it was a minus, and what follows it. -/
def splitSign : List Char → Bool × List Char
  | '+' :: cs => (false, cs)
  | '-' :: cs => (true, cs)
  | cs => (false, cs)

/-- The integer written as an optional sign and at least one ASCII digit, with nothing else. -/
def readInt? (text : String) : Option Int := do
  let (negative, digits) := splitSign text.toList
  if digits.isEmpty then none
  else
    let n := ofDigits (← digitValues? digits)
    some (if negative then -(n : Int) else n)

/-- The number written as at least one ASCII digit, behind an optional plus sign. -/
def readNat? (cs : List Char) : Option Nat :=
  match cs with
  | '+' :: digits => ofDigits? digits
  | digits => ofDigits? digits
where
  /-- The number that at least one digit denotes. -/
  ofDigits? (digits : List Char) : Option Nat :=
    if digits.isEmpty then none else (digitValues? digits).map ofDigits

/-- Splits a text at its first exponent mark. -/
def splitExponent (cs : List Char) : List Char × Option (List Char) :=
  let (front, rest) := cs.span fun c => c ≠ 'e' ∧ c ≠ 'E'
  (front, rest.tail?)

/-- Splits digits at their first point; without a point there is no fraction. -/
def splitPoint (cs : List Char) : List Char × List Char :=
  let (front, rest) := cs.span (· ≠ '.')
  (front, rest.tail)

/-- Reads a numeral: an optional sign, digits with an optional point, an optional exponent. -/
def read? (text : List Char) : Option Numeral := do
  let (negative, unsigned) := splitSign text
  let (front, exponentText) := splitExponent unsigned
  let (wholeText, fractionText) := splitPoint front
  let whole ← digitValues? wholeText
  let fraction ← digitValues? fractionText
  if whole.isEmpty ∧ fraction.isEmpty then none
  else
    let exponent ← match exponentText with
      | none => some none
      | some cs => (readInt? (String.ofList cs)).map some
    some ⟨negative, whole, fraction, exponent⟩

end Numeral

end GraphCodec
