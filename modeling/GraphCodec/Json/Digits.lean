import GraphCodec.Json.SyntaxError
import GraphCodec.Decimal.Numeral

/-!
# Scanning numbers

`Digits` is a number that is being scanned, one character at a time: an optional minus sign, an
integer part without leading zeros, an optional fraction and an optional exponent.  Only the
character after a number tells that it has ended.
-/

namespace GraphCodec.Json

/-- Where in a number the scanner is. -/
inductive Digits.Phase where
  /-- After the minus sign. -/
  | sign
  /-- After an integer part that is zero. -/
  | zero
  | whole
  /-- After the point. -/
  | point
  | fraction
  /-- After the exponent mark. -/
  | mark
  /-- After the sign of the exponent. -/
  | markSign
  | exponent
deriving DecidableEq, Repr

/-- A number that is being scanned; the digits are last first. -/
structure Digits where
  phase : Digits.Phase
  negative : Bool
  whole : List Nat
  fraction : List Nat
  exponentNegative : Bool
  exponent : List Nat
deriving DecidableEq, Repr

namespace Digits

/-- What one character does to a number. -/
inductive Step where
  | more (d : Digits)
  /-- The character does not belong to the number, which is complete. -/
  | ended
  | fault

/-- The number directly after its minus sign. -/
def minus : Digits := ⟨.sign, true, [], [], false, []⟩

/-- A number after its first digit. -/
def first (negative : Bool) (d : Nat) : Digits :=
  ⟨if d = 0 then .zero else .whole, negative, [d], [], false, []⟩

/-- The number as it was written. -/
def numeral (d : Digits) : Numeral where
  negative := d.negative
  whole := d.whole.reverse
  fraction := d.fraction.reverse
  exponent :=
    if d.exponent.isEmpty then none
    else
      let n : Int := Decimal.ofDigits d.exponent.reverse
      some (if d.exponentNegative then -n else n)

/-- Whether the number may end here. -/
def isComplete (d : Digits) : Bool :=
  match d.phase with
  | .zero | .whole | .fraction | .exponent => true
  | .sign | .point | .mark | .markSign => false

/-- The point or exponent mark after digits, or the end of the number. -/
def continued (d : Digits) (allowPoint : Bool) (c : Char) : Step :=
  if allowPoint ∧ c = '.' then .more { d with phase := .point }
  else if c = 'e' ∨ c = 'E' then .more { d with phase := .mark }
  else .ended

/-- Scans one character of a number. -/
def step (d : Digits) (c : Char) : Step :=
  match d.phase, Decimal.digitValue? c with
  | .sign, some v => .more (first d.negative v)
  | .sign, none => .fault
  | .zero, some _ => .fault
  | .zero, none => d.continued true c
  | .whole, some v => .more { d with whole := v :: d.whole }
  | .whole, none => d.continued true c
  | .point, some v => .more { d with phase := .fraction, fraction := [v] }
  | .point, none => .fault
  | .fraction, some v => .more { d with fraction := v :: d.fraction }
  | .fraction, none => d.continued false c
  | .mark, some v | .markSign, some v => .more { d with phase := .exponent, exponent := [v] }
  | .mark, none =>
    if c = '+' then .more { d with phase := .markSign }
    else if c = '-' then .more { d with phase := .markSign, exponentNegative := true }
    else .fault
  | .markSign, none => .fault
  | .exponent, some v => .more { d with exponent := v :: d.exponent }
  | .exponent, none => .ended

end Digits

end GraphCodec.Json
