import Mathlib
import GraphCodec.Calendar.Day

/-!
# Days and their numbers

The fields that `civilOfNumber` finds are those of a day with the number it was given
(`dayNumber_civilOfNumber`), and the day is in its month (`day_civilOfNumber`).
-/

namespace GraphCodec.Calendar

/-- The length of a year. -/
def daysInYear (year : Int) : Int := if isLeapYear year then 366 else 365

/-- The days before a year are those before the year in front of it and the days of that year. -/
private theorem daysBeforeYear_succ (year : Int) :
    daysBeforeYear (year + 1) = daysBeforeYear year + daysInYear year := by
  unfold daysBeforeYear daysInYear isLeapYear
  simp only [Bool.and_eq_true, Bool.or_eq_true, decide_eq_true_eq]
  -- The leap year in front shows as one more day in one of the three quotients.
  split <;> omega

/-- The year that is guessed from the mean length of a year is at most one off. -/
private theorem daysBeforeYear_guess {n q : Int} (hlow : 146097 * q ≤ 400 * n)
    (hhigh : 400 * n < 146097 * (q + 1)) :
    daysBeforeYear q ≤ n ∧ n < daysBeforeYear (q + 1 + 1 + 1) := by
  unfold daysBeforeYear
  dsimp only
  omega

/-- A day lies in its year. -/
private theorem yearOfDays_bounds (n : Int) :
    daysBeforeYear (yearOfDays n) ≤ n ∧ n < daysBeforeYear (yearOfDays n + 1) := by
  -- The guess is never too late and at most one year too early.
  have hguess := daysBeforeYear_guess (n := n) (q := 400 * n / 146097) (by omega) (by omega)
  unfold yearOfDays
  dsimp only
  generalize 400 * n / 146097 = q at *
  split
  -- The guess was right.
  case isTrue h =>
    rw [Int.add_sub_cancel, and_iff_right hguess.1]
    exact h
  -- The guess is corrected by a year, if the day is past its end.
  case isFalse h =>
    split
    case isTrue h' => exact ⟨h', hguess.2⟩
    case isFalse h' => exact ⟨Int.not_lt.1 h, Int.not_le.1 h'⟩

/-- The months of a year make up its days. -/
private theorem sum_monthLengths (year : Int) :
    ((monthLengths year).sum : Int) = daysInYear year := by
  unfold monthLengths daysInYear
  split <;> rfl

/-- The month that some days fall into. -/
private theorem monthAndDay_eq {lengths : List Nat} {rest : Nat} (h : rest < lengths.sum)
    (month : Nat) :
    ∃ k, ∃ hk : k < lengths.length, (lengths.take k).sum ≤ rest ∧
      rest < (lengths.take k).sum + lengths[k] ∧
      monthAndDay month lengths rest = (month + k, rest - (lengths.take k).sum + 1) := by
  induction lengths generalizing month rest with
  | nil => simp at h
  | cons length lengths ih =>
    -- The day is in the first month, or the search goes on with the first month taken off.
    by_cases hlt : rest < length
    · exact ⟨0, by simp, by simp, by simpa using hlt, by simp [monthAndDay, hlt]⟩
    · rw [List.sum_cons] at h
      have hrest : rest - length < lengths.sum := by omega
      obtain ⟨k, hk, hle, hlt', heq⟩ := ih hrest (month + 1)
      -- The place in the rest of the list is one less.
      refine ⟨k + 1, by simpa using hk, ?_, ?_, ?_⟩
      · rw [List.take_succ_cons, List.sum_cons]
        omega
      · simp only [List.take_succ_cons, List.sum_cons, List.getElem_cons_succ]
        omega
      · rw [monthAndDay, if_neg hlt, heq, List.take_succ_cons, List.sum_cons]
        congr 1 <;> omega

/-- The fields of a number, as the year, the months before and the days in the month. -/
theorem civilOfNumber_eq (number : Int) :
    ∃ year k rest, civilOfNumber number = (year, 1 + k, rest + 1) ∧
      rest < (monthLengths year).getD k 0 ∧ k < 12 ∧
      number = daysBeforeYear year + ((monthLengths year).take k).sum + rest - epochDay := by
  have hbounds := yearOfDays_bounds (number + epochDay)
  have hyear := daysBeforeYear_succ (yearOfDays (number + epochDay))
  have hsum := sum_monthLengths (yearOfDays (number + epochDay))
  have hlength : ∀ year, (monthLengths year).length = 12 := fun _ => rfl
  unfold civilOfNumber
  dsimp only
  generalize yearOfDays (number + epochDay) = year at *
  -- What the year leaves of the days is less than the sum of its months.
  have hrest : (number + epochDay - daysBeforeYear year).toNat < (monthLengths year).sum := by omega
  obtain ⟨k, hk, hle, hlt, heq⟩ := monthAndDay_eq hrest 1
  rw [heq]
  refine ⟨year, k, _, rfl, ?_, by rwa [hlength] at hk, by omega⟩
  rw [List.getD_eq_getElem?_getD, List.getElem?_eq_getElem hk, Option.getD_some]
  omega

/-- The number of the fields of a number. -/
theorem dayNumber_civilOfNumber (number : Int) :
    dayNumber (civilOfNumber number).1 (civilOfNumber number).2.1 (civilOfNumber number).2.2 =
      number := by
  obtain ⟨year, k, rest, h, -, -, hnumber⟩ := civilOfNumber_eq number
  have hfold : ∀ ls : List Nat, ls.foldl (· + ·) 0 = ls.sum := fun ls => List.sum_eq_foldl.symm
  rw [h, dayNumber, Nat.add_sub_cancel_left, hfold]
  dsimp only
  omega

/-- The fields of a number are those of a day, as far as the years go. -/
theorem isDay_civilOfNumber (number : Int) (hfirst : firstYear ≤ (civilOfNumber number).1)
    (hlast : (civilOfNumber number).1 ≤ lastYear) :
    IsDay (civilOfNumber number).1 (civilOfNumber number).2.1 (civilOfNumber number).2.2 := by
  obtain ⟨year, k, rest, h, hrest, -, -⟩ := civilOfNumber_eq number
  rw [h] at hfirst hlast ⊢
  refine ⟨hfirst, hlast, Nat.le_add_left 1 rest, ?_⟩
  dsimp only
  -- The months of the year are counted from one.
  rw [daysInMonth, if_neg (by omega), Nat.add_sub_cancel_left]
  exact hrest

end GraphCodec.Calendar
