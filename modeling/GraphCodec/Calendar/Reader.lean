import GraphCodec.Decimal.Basic
import GraphCodec.Text.Blank

/-!
# Reading dates

What can be wrong with the text of a date, and the readers of its parts.  A reader takes the text
that is left and returns a value and the text after it.
-/

namespace GraphCodec.Calendar

/-- What is wrong with the text of a date. -/
inductive DateError where
  | outOfRange
  | invalid
  | tooShort
  | tooLong
deriving DecidableEq, Repr

/-- The message of an error. -/
def DateError.message : DateError → String
  | outOfRange => "input is out of range"
  | invalid => "input contains invalid characters"
  | tooShort => "premature end of input"
  | tooLong => "trailing input"

/-- Reads a part of the text of a date. -/
abbrev DateReader := StateT (List Char) (Except DateError)

namespace DateReader

open Decimal

/-- Refuses the text. -/
def refuse {α : Type} (e : DateError) : DateReader α := fun _ => .error e

/-- A value that must exist, or else the text is out of range. -/
def inRange {α : Type} (a : Option α) : DateReader α :=
  match a with
  | some a => pure a
  | none => refuse .outOfRange

/-- The next character, if there is one, which stays unread. -/
def peek? : DateReader (Option Char) := fun cs => .ok (cs.head?, cs)

/-- Reads one character that fulfils a condition. -/
def satisfying (p : Char → Bool) : DateReader Unit
  | [] => .error .tooShort
  | c :: cs => if p c then .ok ((), cs) else .error .invalid

/-- Reads a given character. -/
def char (c : Char) : DateReader Unit := satisfying (· = c)

/-- Reads one digit where the text is known to be long enough. -/
def digit : DateReader Nat
  | [] => .error .invalid
  | c :: cs =>
    match digitValue? c with
    | some d => .ok (d, cs)
    | none => .error .invalid

/-- Reads a given number of digits, one by one. -/
def digits : Nat → DateReader Nat
  | 0 => pure 0
  | k + 1 => do
    let front ← digits k
    let last ← digit
    return 10 * front + last

/-- Reads at least one digit and at most so many; without a bound, all there are. -/
def number (most : Option Nat) : DateReader (List Nat)
  | [] => .error .tooShort
  | cs =>
    let all := (cs.takeWhile fun c => (digitValue? c).isSome)
    let taken := match most with
      | some k => all.take k
      | none => all
    match digitValues? taken with
    | some (d :: ds) => .ok (d :: ds, cs.drop taken.length)
    | _ => .error .invalid

/-- Passes over digits. -/
def skipDigits : DateReader Unit := fun cs =>
  .ok ((), cs.dropWhile fun c => (digitValue? c).isSome)

/-- Passes over blanks. -/
def skipBlanks : DateReader Unit := fun cs => .ok ((), Text.trimStart cs)

/-- The end of the text. -/
def done : DateReader Unit
  | [] => .ok ((), [])
  | _ => .error .tooLong

end DateReader

end GraphCodec.Calendar
