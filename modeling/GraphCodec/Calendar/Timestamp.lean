import GraphCodec.Calendar.Day
import GraphCodec.Binary.Reading

/-!
# Timestamps

A `Timestamp` is a day and a time of day, down to the nanosecond, without a time zone.  A leap
second is the second 59 of its minute with nanoseconds from `10 ^ 9` on.

Its text is `YYYY-MM-DD HH:MM:SS`, with a fraction of three, six or nine digits unless it is zero.
`Timestamp.parse` reads fields of any width and a fraction of any length, which goes through a
double: the fraction is rounded to a double, its product with `10 ^ 9` to a double again, and that
to the nearest whole nanosecond.
-/

namespace GraphCodec.Calendar

/-- Whether a day has a time with these fields. -/
def IsTime (hour minute second nanos : Nat) : Prop :=
  hour < 24 ∧ minute < 60 ∧ second < 60 ∧ nanos < 2000000000 ∧ (1000000000 ≤ nanos → second = 59)

instance (hour minute second nanos : Nat) : Decidable (IsTime hour minute second nanos) := by
  unfold IsTime; infer_instance

/-- A time of day. -/
structure Time where
  hour : Nat
  minute : Nat
  second : Nat
  nanos : Nat
  isTime : IsTime hour minute second nanos
deriving DecidableEq, Repr

/-- The time with these fields, if there is one. -/
def Time.of? (hour minute second nanos : Nat) : Option Time :=
  if h : IsTime hour minute second nanos then some ⟨hour, minute, second, nanos, h⟩ else none

/-- The start of a day. -/
def Time.midnight : Time := ⟨0, 0, 0, 0, by decide⟩

/-- A day and a time of day. -/
structure Timestamp where
  day : Day
  time : Time
deriving DecidableEq, Repr

open Decimal in
/-- A time as hour, minute and second with colons between them; a leap second is second 60. -/
def clockText (hour minute second nanos : Nat) : List Char :=
  let second := if 1000000000 ≤ nanos then second + 1 else second
  padded 2 hour ++ ':' :: padded 2 minute ++ ':' :: padded 2 second

open Decimal in
/-- The fraction of a second: nothing, or a point and three, six or nine digits. -/
def fractionText (nanos : Nat) : List Char :=
  let n := nanos % 1000000000
  if n = 0 then []
  else if n % 1000000 = 0 then '.' :: padded 3 (n / 1000000)
  else if n % 1000 = 0 then '.' :: padded 6 (n / 1000)
  else '.' :: padded 9 n

namespace Timestamp

/-- The text of a timestamp. -/
def text (t : Timestamp) : String :=
  String.ofList <|
    dateText t.day.year t.day.month t.day.day ++
      ' ' :: clockText t.time.hour t.time.minute t.time.second t.time.nanos ++
      fractionText t.time.nanos

/-- What is wrong with the text of a timestamp. -/
inductive Error where
  | expectedDateAndTime (text : String)
  | invalidDate (date : String)
  | invalidTime (time : String)
deriving DecidableEq, Repr

/-- The message of an error. -/
def Error.message : Error → String
  | expectedDateAndTime s => s!"expected date and optional time: `{s}`"
  | invalidDate s => s!"invalid date format: `{s}`"
  | invalidTime s => s!"invalid time format: `{s}`"

/-- The part of the text that an error is about. -/
def Error.culprit : Error → String
  | expectedDateAndTime s | invalidDate s | invalidTime s => s

/-- Splits a text at every occurrence of a character; there is always at least one part. -/
def splitAt (sep : Char) : List Char → List (List Char)
  | [] => [[]]
  | c :: rest =>
    if c = sep then [] :: splitAt sep rest
    else match splitAt sep rest with
      | part :: parts => (c :: part) :: parts
      | [] => [[c]]

/-- The day written as year, month and day, with hyphens between them. -/
def readDay? (cs : List Char) : Option Day :=
  match splitAt '-' cs with
  | [year, month, day] => do
    Day.of? (← Numeral.readNat? year) (← Numeral.readNat? month) (← Numeral.readNat? day)
  | _ => none

/-- The greatest fraction of a second. -/
def greatestNanos : Nat := 999999999

/-- A fraction of a second in nanoseconds, a half going up; it is never a whole second. -/
def nanosOf (fraction : Double) : Nat :=
  match fraction with
  | .finite x =>
    let giga := binary64.units (binary64.nearest 1000000000 1)
    let product := binary64.nearest (x.units * giga) (2 ^ (2 * binary64.scale))
    if product < binary64.infinityRank then
      min (roundHalfUp (binary64.units product) (2 ^ binary64.scale)) greatestNanos
    else greatestNanos
  | _ => greatestNanos

/-- The nanoseconds that the text after a point stands for: what may follow `0.` in the text of a
number. -/
def readFraction? (cs : List Char) : Option Nat :=
  (Binary.ofText? binary64 (String.ofList ('0' :: '.' :: cs))).map nanosOf

/-- The time written as hour, minute and second, with colons between them, and an optional
fraction after a point. -/
def readTime? (cs : List Char) : Option Time := do
  let (clock, rest) := cs.span (· ≠ '.')
  let nanos ← match rest with
    | [] => some 0
    | _ :: fraction => readFraction? fraction
  match splitAt ':' clock with
  | [hour, minute, second] =>
    Time.of? (← Numeral.readNat? hour) (← Numeral.readNat? minute) (← Numeral.readNat? second) nanos
  | _ => none

/-- Reads a day, or a day and a time with a space between them; without a time it is midnight. -/
def parse (s : String) : Except Error Timestamp :=
  match splitAt ' ' s.toList with
  | [date] =>
    match readDay? date with
    | some day => .ok ⟨day, Time.midnight⟩
    | none => .error (.invalidDate (String.ofList date))
  | [date, time] =>
    match readDay? date, readTime? time with
    | some day, some time => .ok ⟨day, time⟩
    | some _, none => .error (.invalidTime (String.ofList time))
    | none, _ => .error (.invalidDate (String.ofList date))
  | _ => .error (.expectedDateAndTime s)

end Timestamp

end GraphCodec.Calendar
