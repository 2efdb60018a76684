import GraphCodec.Calendar.Day
import GraphCodec.Calendar.Reader

/-!
# Reading a local date

A local date is read as year, month and day with hyphens between them; blanks may stand in front of
each.  The year has up to four digits, or any number of digits behind a sign, and the month and the
day have up to two.  Each field is checked as soon as it is read, and the day last.
-/

namespace GraphCodec.Calendar.LocalDate

open DateReader

/-- Years that are looked up in the calendar at all; others are refused at once. -/
def isYear (y : Int) : Bool := -2147483648 ≤ y && y ≤ 2147483647

/-- Reads a year. -/
def year : DateReader Int := do
  skipBlanks
  let y : Int ← match ← peek? with
    | some '-' => do
      char '-'
      let ds ← number none
      pure (-(Decimal.ofDigits ds : Int))
    | some '+' => do
      char '+'
      let ds ← number none
      pure (Decimal.ofDigits ds : Int)
    | _ => do
      let ds ← number (some 4)
      pure (Decimal.ofDigits ds : Int)
  inRange (if isYear y then some y else none)

/-- Reads a month or a day, which is counted from one. -/
def countUpTo (most : Nat) : DateReader Nat := do
  skipBlanks
  let ds ← number (some 2)
  let n := Decimal.ofDigits ds
  inRange (if 1 ≤ n ∧ n ≤ most then some n else none)

/-- Reads the three fields of a local date, with nothing after them. -/
def fields : DateReader (Int × Nat × Nat) := do
  let y ← year
  char '-'
  let m ← countUpTo 12
  char '-'
  let d ← countUpTo 31
  done
  return (y, m, d)

/-- Reads a local date. -/
def parse (text : String) : Except DateError Day := do
  let ((y, m, d), _) ← fields.run text.toList
  match Day.of? y m d with
  | some day => return day
  | none => .error .outOfRange

end GraphCodec.Calendar.LocalDate
