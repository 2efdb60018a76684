import GraphCodec.Decimal.Basic

/-!
# Days of the calendar

A `Day` is a day of the proleptic Gregorian calendar in the years the library supports.  Days are
also counted from 1 January 1970, in both directions: `dayNumber` numbers a day by its fields and
`civilOfNumber` finds the fields of a number.
-/

namespace GraphCodec.Calendar

/-- Whether February has 29 days. -/
def isLeapYear (year : Int) : Bool :=
  year % 4 = 0 && (year % 100 ≠ 0 || year % 400 = 0)

/-- The lengths of the months of a year. -/
def monthLengths (year : Int) : List Nat :=
  [31, if isLeapYear year then 29 else 28, 31, 30, 31, 30, 31, 31, 30, 31, 30, 31]

/-- The days of a month, which is counted from one; no days outside the year. -/
def daysInMonth (year : Int) (month : Nat) : Nat :=
  if month = 0 then 0 else (monthLengths year).getD (month - 1) 0

/-- The first year with days. -/
def firstYear : Int := -262143

/-- The last year with days. -/
def lastYear : Int := 262142

/-- Whether the calendar has a day with these fields. -/
def IsDay (year : Int) (month day : Nat) : Prop :=
  firstYear ≤ year ∧ year ≤ lastYear ∧ 1 ≤ day ∧ day ≤ daysInMonth year month

instance (year : Int) (month day : Nat) : Decidable (IsDay year month day) := by
  unfold IsDay; infer_instance

/-- A day of the calendar. -/
structure Day where
  year : Int
  month : Nat
  day : Nat
  isDay : IsDay year month day
deriving DecidableEq, Repr

/-- The day with these fields, if there is one. -/
def Day.of? (year : Int) (month day : Nat) : Option Day :=
  if h : IsDay year month day then some ⟨year, month, day, h⟩ else none

/-- The number of days from 1 January of the year 1 to 1 January of a year. -/
def daysBeforeYear (year : Int) : Int :=
  let y := year - 1
  365 * y + y / 4 - y / 100 + y / 400

/-- The number of 1 January 1970, counted from 1 January of the year 1. -/
def epochDay : Int := 719162

/-- The number of a day, counted from 1 January 1970. -/
def dayNumber (year : Int) (month day : Nat) : Int :=
  let daysBeforeMonth : Nat := ((monthLengths year).take (month - 1)).foldl (· + ·) 0
  daysBeforeYear year + daysBeforeMonth + day - 1 - epochDay

/-- The month and day that lie so many days after the first of the first of some months. -/
def monthAndDay (month : Nat) : List Nat → Nat → Nat × Nat
  | [], rest => (month, rest + 1)
  | length :: lengths, rest =>
    if rest < length then (month, rest + 1) else monthAndDay (month + 1) lengths (rest - length)

/-- The year of the day that lies `n` days after 1 January of the year 1. -/
def yearOfDays (n : Int) : Int :=
  let guess := 400 * n / 146097 + 1
  if n < daysBeforeYear guess then guess - 1
  else if daysBeforeYear (guess + 1) ≤ n then guess + 1
  else guess

/-- The year, month and day of a day's number. -/
def civilOfNumber (number : Int) : Int × Nat × Nat :=
  let n := number + epochDay
  let year := yearOfDays n
  let (month, day) := monthAndDay 1 (monthLengths year) (n - daysBeforeYear year).toNat
  (year, month, day)

open Decimal in
/-- A year in at least four digits, with a sign outside of the years 0 to 9999. -/
def yearText (year : Int) : List Char :=
  if 0 ≤ year ∧ year ≤ 9999 then padded 4 year.natAbs
  else (if year < 0 then '-' else '+') :: padded 4 year.natAbs

open Decimal in
/-- A date as year, month and day, with hyphens between them. -/
def dateText (year : Int) (month day : Nat) : List Char :=
  yearText year ++ '-' :: padded 2 month ++ '-' :: padded 2 day

/-- The text of a day. -/
def Day.text (d : Day) : String := String.ofList (dateText d.year d.month d.day)

end GraphCodec.Calendar
