import GraphCodec.Json.Basic
import GraphCodec.Decimal.Numeral

/-!
# The number that a JSON numeral denotes

An integer that fits into 64 bits, signed or unsigned, is kept exactly; minus zero is not an
integer.  Every other numeral is a double, found from at most 64 bits of its digits: the digits
that no longer fit are dropped, the rest is converted to a double and then scaled by a power of
ten that is itself a double.  The result can be off by a unit in the last place; a numeral whose
magnitude is too large has no number.
-/

namespace GraphCodec.Json.Number

/-- Appends digits to a significand while it stays below `2 ^ 64`; the digits from the first one
that does not fit are left over. -/
def appendDigits (significand : Nat) : List Nat → Nat × List Nat
  | [] => (significand, [])
  | d :: ds =>
    if 10 * significand + d < 2 ^ (64 : Nat) then appendDigits (10 * significand + d) ds
    else (significand, d :: ds)

/-- The double closest to a power of ten, as its rank. -/
def powerOfTen (k : Nat) : Nat := binary64.nearest (10 ^ k) 1

/-- Divides a double by a power of ten, `10 ^ 308` at a time. -/
def divideByPower (rank exponent : Nat) : Nat :=
  if exponent ≤ 308 then
    binary64.nearest (binary64.units rank) (binary64.units (powerOfTen exponent))
  else if rank = 0 then 0
  else
    divideByPower (binary64.nearest (binary64.units rank) (binary64.units (powerOfTen 308)))
      (exponent - 308)
termination_by exponent

/-- Multiplies a double by a power of ten; `none` if the product is too large. -/
def multiplyByPower? (rank exponent : Nat) : Option Nat :=
  if rank = 0 then some 0
  else if 308 < exponent then none
  else
    some (binary64.nearest (binary64.units rank * binary64.units (powerOfTen exponent))
      (2 ^ (2 * binary64.scale)))

/-- The double for a significand and a power of ten; `none` if it is too large. -/
def scaled? (negative : Bool) (significand : Nat) (exponent : Int) : Option (Finite binary64) := do
  let start := binary64.nearest significand 1
  let rank ←
    if 0 ≤ exponent then multiplyByPower? start exponent.toNat
    else some (divideByPower start (-exponent).toNat)
  if h : rank < binary64.infinityRank then some ⟨negative, ⟨rank, h⟩⟩ else none

/-- The number that a numeral denotes; `none` if it is out of range. -/
def ofNumeral? (n : Numeral) : Option Number :=
  let (wholePart, dropped) := appendDigits 0 n.whole
  let isIntegral := n.isInteger && dropped.isEmpty
  if isIntegral && !n.negative then some (.integer wholePart)
  else if isIntegral && n.negative && wholePart ≠ 0 && wholePart ≤ 2 ^ (63 : Nat) then
    some (.integer (-(wholePart : Int)))
  else
    let (significand, unread) := appendDigits wholePart n.fraction
    let kept : Int := n.fraction.length - unread.length
    let exponent := dropped.length - kept + n.exponent.getD 0
    (scaled? n.negative significand exponent).map .double

end GraphCodec.Json.Number
