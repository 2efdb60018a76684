import GraphCodec.Calendar.Timestamp
import GraphCodec.Calendar.Reader

/-!
# Instants

An `Instant` is a point in time: seconds since the start of 1970 in UTC, and nanoseconds, which
reach `10 ^ 9` and more inside a leap second.  Its text is a date and a time in UTC with
milliseconds, `YYYY-MM-DDTHH:MM:SS.mmmZ`.

`Instant.parse` reads a date and time with a fraction of any length and with an offset from UTC.
-/

namespace GraphCodec.Calendar

/-- The first second of the first supported year. -/
def firstSecond : Int := -8334601228800

/-- The last second of the last supported year. -/
def lastSecond : Int := 8210266876799

/-- Whether there is an instant with these seconds and nanoseconds. -/
def IsInstant (seconds : Int) (nanos : Nat) : Prop :=
  firstSecond ≤ seconds ∧ seconds ≤ lastSecond ∧ nanos < 2000000000 ∧
    (1000000000 ≤ nanos → seconds % 60 = 59)

instance (seconds : Int) (nanos : Nat) : Decidable (IsInstant seconds nanos) := by
  unfold IsInstant; infer_instance

/-- A point in time. -/
structure Instant where
  seconds : Int
  nanos : Nat
  isInstant : IsInstant seconds nanos
deriving DecidableEq, Repr

namespace Instant

/-- The instant with these seconds and nanoseconds, if it is supported. -/
def of? (seconds : Int) (nanos : Nat) : Option Instant :=
  if h : IsInstant seconds nanos then some ⟨seconds, nanos, h⟩ else none

/-- The instant so many milliseconds after the start of 1970. -/
def ofMillis? (millis : Int) : Option Instant :=
  of? (millis / 1000) ((millis % 1000).toNat * 1000000)

/-- The text of an instant: date and time in UTC, with the milliseconds that have passed. -/
def text (t : Instant) : String :=
  let (year, month, day) := civilOfNumber (t.seconds / 86400)
  let second := (t.seconds % 86400).toNat
  String.ofList <|
    dateText year month day ++
      'T' :: clockText (second / 3600) (second / 60 % 60) (second % 60) t.nanos ++
      '.' :: Decimal.padded 3 (t.nanos % 1000000000 / 1000000) ++ ['Z']

open DateReader

/-- Reads the day: four, two and two digits with hyphens between them. -/
def day : DateReader Day := do
  let year ← digits 4
  char '-'
  let month ← digits 2
  char '-'
  let day ← digits 2
  inRange (Day.of? year month day)

/-- Reads a fraction of a second in nanoseconds; digits after the ninth are passed over. -/
def fraction : DateReader Nat := do
  if (← peek?) = some '.' then
    char '.'
    let ds ← number (some 9)
    skipDigits
    return Decimal.ofDigits ds * 10 ^ (9 - ds.length)
  else
    return 0

/-- Reads the time of day; second 60 is a leap second. -/
def time : DateReader Time := do
  let hour ← digits 2
  char ':'
  let minute ← digits 2
  char ':'
  let second ← digits 2
  let nanos ← fraction
  inRange (if second = 60 then Time.of? hour minute 59 (1000000000 + nanos)
    else Time.of? hour minute second nanos)

/-- Reads two digits; the text must not end within them, and the first is below a bound. -/
def twoDigits (below : Nat) : DateReader Nat
  | [] => .error .tooShort
  | [c] => if c.utf8Size < 2 then .error .tooShort else .error .invalid
  | c :: d :: cs =>
    match Decimal.digitValue? c, Decimal.digitValue? d with
    | some tens, some ones =>
      if tens < below then .ok (10 * tens + ones, cs) else .error .outOfRange
    | _, _ => .error .invalid

/-- Reads an offset from UTC in seconds: `Z`, or a sign, hours, a colon and minutes. -/
def offset : DateReader Int := do
  match ← peek? with
  | some 'Z' => char 'Z'; return 0
  | some 'z' => char 'z'; return 0
  | some '+' => char '+'; amount
  | some '-' => char '-'; return -(← amount)
  | some '\u2212' => char '\u2212'; return -(← amount)
  | some _ => refuse .invalid
  | none => refuse .tooShort
where
  /-- Hours and minutes as seconds. -/
  amount : DateReader Int := do
    let hours ← twoDigits 10
    char ':'
    let minutes ← twoDigits 6
    return (hours * 3600 + minutes * 60 : Nat)

/-- Reads a date, a `T` or a space, a time and an offset, with nothing after them. -/
def fields : DateReader (Day × Time × Int) := do
  let day ← day
  satisfying fun c => c = 'T' || c = 't' || c = ' '
  let time ← time
  let offset ← offset
  done
  return (day, time, offset)

/-- Reads an instant: a date and time with an offset from UTC. -/
def parse (text : String) : Except DateError Instant := do
  if text.utf8ByteSize < 19 then .error .tooShort
  else
    let ((day, time, offset), _) ← fields.run text.toList
    if 86400 ≤ offset.natAbs then .error .outOfRange
    else
      let seconds := dayNumber day.year day.month day.day * 86400 +
        (time.hour * 3600 + time.minute * 60 + time.second : Nat) - offset
      match of? seconds time.nanos with
      | some t => return t
      | none => .error .outOfRange

end Instant

end GraphCodec.Calendar
