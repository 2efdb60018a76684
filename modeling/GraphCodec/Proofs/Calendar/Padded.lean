import GraphCodec.Proofs.Decimal.Digits
import GraphCodec.Proofs.Json.NumberRange

/-!
# Fields of dates

The fields of a date and of a time are numbers in a fixed number of digits (`Decimal.padded`), which
denote the same number with or without the zeros in front (`Decimal.ofDigits_padded`).
-/

namespace GraphCodec

namespace Decimal

/-- A padded number is made of digits. -/
theorem isDigit_of_mem_padded {width n : Nat} {c : Char} (h : c ∈ padded width n) : IsDigit c := by
  rcases List.mem_append.1 h with h | h
  · rw [(List.mem_replicate.1 h).2]
    exact isDigit_zero
  · exact isDigit_of_mem_digitsOf h

theorem not_mem_padded {c : Char} (hc : ¬IsDigit c) (width n : Nat) : c ∉ padded width n :=
  fun h => hc (isDigit_of_mem_padded h)

theorem padded_ne_nil (width n : Nat) : padded width n ≠ [] :=
  List.append_ne_nil_of_right_ne_nil _ (digitsOf_ne_nil n)

/-- A number that fits into the width takes up all of it. -/
theorem length_padded {width n : Nat} (hwidth : 0 < width) (h : n < 10 ^ width) :
    (padded width n).length = width := by
  have hle : (digitsOf n).length ≤ width :=
    (Nat.length_toDigits_le_iff (by decide) hwidth).2 h
  simp only [padded, List.length_append, List.length_replicate]
  omega

/-- Zeros in front do not change a number. -/
theorem ofDigits_padded (width n : Nat) : ofDigits ((padded width n).map digitValue) = n := by
  -- The zeros in front denote zero, and the digits behind them are read on from there.
  have hzeros : ∀ k, ofDigits ((List.replicate k '0').map digitValue) = 0 := by
    intro k
    induction k with
    | zero => rfl
    | succ k ih =>
      rw [List.replicate_succ, List.map_cons, ofDigits, List.foldl_cons]
      exact ih
  rw [padded, List.map_append, ofDigits_append, hzeros, ← ofDigits, ofDigits_digitsOf]

/-- The digits of a padded number are read. -/
private theorem digitValues?_padded (width n : Nat) :
    digitValues? (padded width n) = some ((padded width n).map digitValue) :=
  digitValues?_of_isDigit fun _ => isDigit_of_mem_padded

end Decimal

open Decimal

/-- A padded number is read as the number. -/
theorem Numeral.ofDigits?_padded (width n : Nat) :
    Numeral.readNat?.ofDigits? (padded width n) = some n := by
  have hne : (padded width n).isEmpty = false := List.isEmpty_eq_false_iff.2 (padded_ne_nil width n)
  simp only [Numeral.readNat?.ofDigits?, hne, Bool.false_eq_true, if_false,
    digitValues?_padded, Option.map_some, ofDigits_padded]

/-- A field reads back as its number. -/
theorem Numeral.readNat?_padded (width n : Nat) : Numeral.readNat? (padded width n) = some n := by
  unfold Numeral.readNat?
  split
  case h_1 digits h =>
    have hplus : IsDigit '+' := isDigit_of_mem_padded (by rw [h]; exact List.mem_cons_self)
    exact absurd hplus (by decide)
  case h_2 => exact ofDigits?_padded width n

end GraphCodec
