import Mathlib
import GraphCodec.Calendar.Instant
import GraphCodec.Proofs.Calendar.Civil
import GraphCodec.Proofs.Calendar.Padded

/-!
# Instants are read back

The text of an instant in the years 0 to 9999 of UTC is read back as the instant down to its whole
milliseconds, leap seconds included.  Outside of these years the text begins with a sign and is
refused (`Instant.parse_text_of_year`).
-/

namespace GraphCodec.Calendar

open Decimal

/-! ### Readers -/

namespace DateReader

variable {α β : Type} {r : DateReader α} {f : α → DateReader β} {cs mid rest : List Char} {a : α}
  {b : β}

/-- Whether a reader reads a value from a text and leaves the rest of it. -/
def Reads (r : DateReader α) (cs : List Char) (a : α) (rest : List Char) : Prop :=
  r cs = .ok (a, rest)

theorem reads_pure : Reads (pure a) cs a cs := rfl

/-- Readings behind each other are read one after the other. -/
theorem Reads.bind (h : Reads r cs a mid) (hf : Reads (f a) mid b rest) :
    Reads (r >>= f) cs b rest := by
  show (r cs >>= fun p => f p.1 p.2) = .ok (b, rest)
  rw [h]
  exact hf

/-- What a reader refuses is refused by all that begins with it. -/
theorem bind_error {e : DateError} (h : r cs = .error e) : (r >>= f) cs = .error e := by
  show (r cs >>= fun p => f p.1 p.2) = .error e
  rw [h]
  rfl

/-- A character that satisfies a condition is read past. -/
private theorem reads_satisfying {p : Char → Bool} {c : Char} (h : p c = true) (rest : List Char) :
    Reads (satisfying p) (c :: rest) () rest := by
  simp [Reads, DateReader.satisfying, h]

theorem reads_char (c : Char) (rest : List Char) : Reads (char c) (c :: rest) () rest :=
  reads_satisfying (by simp) rest

/-- A value that is in range is given back. -/
private theorem reads_inRange {o : Option α} (h : o = some a) : Reads (inRange o) cs a cs := by
  rw [h]
  rfl

private theorem reads_peek (c : Char) (rest : List Char) :
    Reads peek? (c :: rest) (some c) (c :: rest) := rfl

/-- Digits are read as the number that they denote. -/
private theorem reads_digits {ds : List Char} (hds : ∀ c ∈ ds, IsDigit c) (rest : List Char) :
    Reads (digits ds.length) (ds ++ rest) (ofDigits (ds.map digitValue)) rest := by
  induction ds using List.reverseRecOn generalizing rest with
  | nil => rfl
  -- The last digit is read behind the others.
  | append_singleton ds d ih =>
    have hd : digitValue? d = some (digitValue d) := hds d (by simp)
    have hdigit : Reads digit (d :: rest) (digitValue d) rest := by
      simp only [Reads, digit, hd]
    have hfront := ih (fun c hc => hds c (by simp [hc])) (d :: rest)
    rw [List.length_append, List.length_singleton, List.append_assoc, List.singleton_append,
      List.map_append, List.map_singleton, ofDigits_append]
    exact hfront.bind (hdigit.bind reads_pure)

/-- A field is read as its number. -/
theorem reads_padded {width n : Nat} (hwidth : 0 < width) (h : n < 10 ^ width) (rest : List Char) :
    Reads (digits width) (padded width n ++ rest) n rest := by
  have hdigits : ∀ c ∈ padded width n, IsDigit c := fun _ => isDigit_of_mem_padded
  have hread := reads_digits hdigits rest
  rwa [length_padded hwidth h, ofDigits_padded] at hread

/-- Digits are not read from another character. -/
private theorem digits_of_not_digit {c : Char} (hc : digitValue? c = none) (cs : List Char)
    (k : Nat) :
    digits (k + 1) (c :: cs) = .error .invalid := by
  induction k with
  | zero =>
    have hdigit : digit (c :: cs) = .error .invalid := by simp only [digit, hc]
    exact bind_error (f := fun last => pure (10 * 0 + last)) hdigit
  | succ k ih => exact bind_error ih

/-- All digits in front of another character are read. -/
private theorem reads_number {ds : List Char} (hds : ∀ c ∈ ds, IsDigit c) (hne : ds ≠ [])
    {most : Nat}
    (hmost : ds.length ≤ most) {c : Char} (hc : digitValue? c = none) (rest : List Char) :
    Reads (number (some most)) (ds ++ c :: rest) (ds.map digitValue) (c :: rest) := by
  -- The digits end where the other character begins.
  have hall : (ds ++ c :: rest).takeWhile (fun c => (digitValue? c).isSome) = ds := by
    rw [List.takeWhile_append_of_pos fun d hd => by rw [hds d hd]; rfl]
    simp [hc]
  cases ds with
  | nil => exact absurd rfl hne
  | cons d ds =>
    rw [List.cons_append] at hall ⊢
    simp only [Reads, number, hall, List.take_of_length_le hmost, digitValues?_of_isDigit hds,
      List.map_cons]
    simp

/-- No digits are skipped where none stand. -/
private theorem reads_skipDigits {c : Char} (hc : digitValue? c = none) (rest : List Char) :
    Reads skipDigits (c :: rest) () (c :: rest) := by
  simp [Reads, skipDigits, hc]

end DateReader

/-! ### The fields of a day -/

/-- No month has more than 31 days. -/
private theorem daysInMonth_le (year : Int) (month : Nat) : daysInMonth year month ≤ 31 := by
  have hle : ∀ l ∈ monthLengths year, l ≤ 31 := by
    unfold monthLengths
    split <;> decide
  unfold daysInMonth
  split
  · exact Nat.zero_le _
  · rw [List.getD_eq_getElem?_getD]
    cases hl : (monthLengths year)[month - 1]? with
    | none => exact Nat.zero_le _
    | some l => exact hle l (List.mem_of_getElem? hl)

/-- A day is in one of twelve months. -/
private theorem IsDay.month_le {year : Int} {month day : Nat} (h : IsDay year month day) :
    month ≤ 12 := by
  -- A month behind the last one has no days, so none of them is a day of it.
  by_contra hlt
  have hnone : daysInMonth year month = 0 := by
    rw [daysInMonth, if_neg (by omega), List.getD_eq_getElem?_getD, List.getElem?_eq_none]
    · rfl
    · show 12 ≤ month - 1
      omega
  have := h.2.2
  omega

namespace Instant

open DateReader

/-- The date of a day is read as the day. -/
private theorem reads_day {d : Day} (hfirst : 0 ≤ d.year) (hlast : d.year ≤ 9999)
    (rest : List Char) :
    Reads day (dateText d.year d.month d.day ++ rest) d rest := by
  -- Between 0 and 9999 the year is written without a sign, in four digits.
  have hyear : yearText d.year = padded 4 d.year.natAbs := if_pos ⟨hfirst, hlast⟩
  have hnat : (d.year.natAbs : Int) = d.year := by omega
  have hmonth := d.isDay.month_le
  have hday := d.isDay.2.2.2.trans (daysInMonth_le _ _)
  rw [dateText, hyear]
  simp only [List.append_assoc, List.cons_append]
  -- Year, month and day are read in turn, with a dash between them.
  refine (reads_padded (by decide) (by omega) _).bind ?_
  refine (reads_char '-' _).bind ?_
  refine (reads_padded (by decide) (by omega) _).bind ?_
  refine (reads_char '-' _).bind ?_
  refine (reads_padded (by decide) (by omega) _).bind ?_
  apply reads_inRange
  rw [hnat]
  exact dif_pos d.isDay

/-- A date with a sign is refused. -/
private theorem day_of_signed {year : Int} (h : ¬(0 ≤ year ∧ year ≤ 9999)) (month dayOfMonth : Nat)
    (rest : List Char) : day (dateText year month dayOfMonth ++ rest) = .error .invalid := by
  -- Whatever the sign, it is not a digit.
  obtain ⟨sign, cs, hsign, hchars⟩ : ∃ sign cs, digitValue? sign = none ∧
      dateText year month dayOfMonth ++ rest = sign :: cs := by
    rw [dateText, yearText, if_neg h]
    split_ifs
    · exact ⟨'-', _, rfl, rfl⟩
    · exact ⟨'+', _, rfl, rfl⟩
  rw [hchars]
  exact bind_error (digits_of_not_digit hsign cs 3)

/-- Milliseconds are read as nanoseconds. -/
private theorem reads_fraction {millis : Nat} (h : millis < 1000) :
    Reads fraction ('.' :: (padded 3 millis ++ ['Z'])) (millis * 1000000) ['Z'] := by
  have hlength : (padded 3 millis).length = 3 := length_padded (by decide) (by omega)
  have hdigits : ∀ c ∈ padded 3 millis, IsDigit c := fun _ => isDigit_of_mem_padded
  have hmost : (padded 3 millis).length ≤ 9 := by omega
  have hnumber := reads_number hdigits (padded_ne_nil _ _) hmost (c := 'Z') rfl []
  -- The three digits are filled up to nine.
  have hvalue : millis * 1000000 = ofDigits ((padded 3 millis).map digitValue) *
      10 ^ (9 - ((padded 3 millis).map digitValue).length) := by
    rw [ofDigits_padded, List.length_map, hlength]
  rw [hvalue]
  -- Behind the digits nothing is skipped, as a letter stands there.
  refine (reads_peek '.' _).bind ?_
  refine (reads_char '.' _).bind ?_
  exact hnumber.bind ((reads_skipDigits rfl []).bind reads_pure)

/-- A time down to its whole milliseconds is a time. -/
theorem isTime_millis {hour minute second nanos : Nat} (h : IsTime hour minute second nanos) :
    IsTime hour minute second (nanos / 1000000 * 1000000) := by
  unfold IsTime at h ⊢
  omega

/-- A time of day is read down to its whole milliseconds, leap seconds included. -/
private theorem reads_time {hour minute second nanos : Nat} (h : IsTime hour minute second nanos) :
    Reads time (clockText hour minute second nanos ++
        '.' :: (padded 3 (nanos % 1000000000 / 1000000) ++ ['Z']))
      ⟨hour, minute, second, nanos / 1000000 * 1000000, isTime_millis h⟩ ['Z'] := by
  have hbounds := h
  unfold IsTime at hbounds
  rw [clockText]
  -- Hour, minute and second are read in turn, and then the fraction.
  simp only [List.append_assoc, List.cons_append]
  refine (reads_padded (by decide) (by omega) _).bind ?_
  refine (reads_char ':' _).bind ?_
  refine (reads_padded (by decide) (by omega) _).bind ?_
  refine (reads_char ':' _).bind ?_
  refine (reads_padded (by decide) (by split_ifs <;> omega) _).bind ?_
  refine (reads_fraction (by omega)).bind ?_
  apply reads_inRange
  -- A leap second is written as the second 60, and read as a billion nanoseconds more.
  by_cases hleap : 1000000000 ≤ nanos
  · have hsecond := hbounds.2.2.2.2 hleap
    have hnanos : 1000000000 + nanos % 1000000000 / 1000000 * 1000000 =
        nanos / 1000000 * 1000000 := by omega
    subst hsecond
    rw [if_pos hleap, if_pos rfl, hnanos]
    exact dif_pos (isTime_millis h)
  · have hnanos : nanos % 1000000000 / 1000000 * 1000000 = nanos / 1000000 * 1000000 := by omega
    rw [if_neg hleap, if_neg (by omega), hnanos]
    exact dif_pos (isTime_millis h)

/-- A date and a time in UTC are read as their fields. -/
private theorem reads_fields {d : Day} (hfirst : 0 ≤ d.year) (hlast : d.year ≤ 9999)
    {hour minute second nanos : Nat} (h : IsTime hour minute second nanos) :
    Reads fields (dateText d.year d.month d.day ++ 'T' :: (clockText hour minute second nanos ++
        '.' :: (padded 3 (nanos % 1000000000 / 1000000) ++ ['Z'])))
      (d, ⟨hour, minute, second, nanos / 1000000 * 1000000, isTime_millis h⟩, 0) [] := by
  -- A text in UTC ends with the letter for it.
  have hoffset : Reads offset ['Z'] 0 [] :=
    (reads_peek 'Z' []).bind ((reads_char 'Z' []).bind reads_pure)
  have hend : Reads done [] () [] := rfl
  refine (reads_day hfirst hlast _).bind ?_
  refine (reads_satisfying rfl _).bind ?_
  exact (reads_time h).bind (hoffset.bind (hend.bind reads_pure))

/-! ### Instants -/

/-- The year of an instant in UTC. -/
def year (t : Instant) : Int := (civilOfNumber (t.seconds / 86400)).1

/-- An instant down to its whole milliseconds. -/
def truncated (t : Instant) : Instant where
  seconds := t.seconds
  nanos := t.nanos / 1000000 * 1000000
  isInstant := by
    have h := t.isInstant
    unfold IsInstant at h ⊢
    omega

/-- The time of day of an instant. -/
private theorem isTime_clock (t : Instant) :
    IsTime ((t.seconds % 86400).toNat / 3600) ((t.seconds % 86400).toNat / 60 % 60)
      ((t.seconds % 86400).toNat % 60) t.nanos := by
  have h := t.isInstant
  unfold IsInstant at h
  unfold IsTime
  omega

/-- The characters of the text of an instant. -/
theorem text_eq (t : Instant) : t.text = String.ofList
    (dateText t.year (civilOfNumber (t.seconds / 86400)).2.1
        (civilOfNumber (t.seconds / 86400)).2.2 ++
      'T' :: (clockText ((t.seconds % 86400).toNat / 3600) ((t.seconds % 86400).toNat / 60 % 60)
        ((t.seconds % 86400).toNat % 60) t.nanos ++
          '.' :: (padded 3 (t.nanos % 1000000000 / 1000000) ++ ['Z']))) := by
  rw [text]
  simp only [List.append_assoc, List.cons_append]
  rfl

/-- The text of an instant is long enough to be read at all. -/
private theorem le_utf8ByteSize_text (t : Instant) : 19 ≤ t.text.utf8ByteSize := by
  -- A character takes at least one byte.
  have hlen : ∀ cs : List Char, cs.length ≤ (String.ofList cs).utf8ByteSize := by
    intro cs
    induction cs with
    | nil => simp
    | cons c cs ih =>
      have := c.utf8Size_pos
      rw [String.utf8ByteSize_ofList] at ih ⊢
      simp only [String.utf8Len_cons, List.length_cons]
      omega
  -- A padded field has at least its width.
  have hpadded : ∀ width n, width ≤ (padded width n).length := by
    intro width n
    simp only [padded, List.length_append, List.length_replicate]
    omega
  have hyear : 4 ≤ (yearText t.year).length := by
    have hdigits := hpadded 4 t.year.natAbs
    unfold yearText
    split_ifs
    · exact hdigits
    · exact Nat.le_succ_of_le hdigits
    · exact Nat.le_succ_of_le hdigits
  rw [text_eq]
  -- Each character takes a byte or more, so it is enough to count characters.
  refine le_trans ?_ (hlen _)
  have hmonth := hpadded 2 (civilOfNumber (t.seconds / 86400)).2.1
  have hday := hpadded 2 (civilOfNumber (t.seconds / 86400)).2.2
  have hhour := hpadded 2 ((t.seconds % 86400).toNat / 3600)
  have hminute := hpadded 2 ((t.seconds % 86400).toNat / 60 % 60)
  simp only [dateText, clockText, List.length_append, List.length_cons, List.length_nil]
  omega

section Parse

variable {cs : List Char} (hsize : 19 ≤ (String.ofList cs).utf8ByteSize)

include hsize

/-- An instant is read from its fields. -/
private theorem parse_of_reads {d : Day} {time : Time} {offset : Int}
    (h : Reads fields cs (d, time, offset) []) (hoffset : offset.natAbs < 86400) {t : Instant}
    (ht : of? (dayNumber d.year d.month d.day * 86400 +
      (time.hour * 3600 + time.minute * 60 + time.second : Nat) - offset) time.nanos = some t) :
    parse (String.ofList cs) = .ok t := by
  have hrun : StateT.run fields cs = .ok ((d, time, offset), []) := h
  have hlt : ¬86400 ≤ offset.natAbs := by omega
  rw [parse, if_neg (by omega), String.toList_ofList, hrun]
  simp only [bind, Except.bind, if_neg hlt, ht]
  rfl

/-- A text is refused for what is wrong with its fields. -/
private theorem parse_of_error {e : DateError} (h : fields cs = .error e) :
    parse (String.ofList cs) = .error e := by
  have hrun : StateT.run fields cs = .error e := h
  rw [parse, if_neg (by omega), String.toList_ofList, hrun]
  rfl

end Parse

/-- The text of an instant in the years 0 to 9999 is read back as the instant down to its whole
milliseconds; any other text is refused because of its sign. -/
theorem parse_text_of_year (t : Instant) :
    parse t.text =
      if 0 ≤ t.year ∧ t.year ≤ 9999 then .ok t.truncated else .error .invalid := by
  have hsize := t.le_utf8ByteSize_text
  rw [text_eq] at hsize ⊢
  by_cases hyear : 0 ≤ t.year ∧ t.year ≤ 9999
  · have hday := isDay_civilOfNumber (t.seconds / 86400)
      -- The year lies within those of the calendar.
      (le_trans (by decide) hyear.1) (hyear.2.trans (by decide))
    -- The seconds of the fields are those of the instant.
    have hseconds : dayNumber (civilOfNumber (t.seconds / 86400)).1
        (civilOfNumber (t.seconds / 86400)).2.1 (civilOfNumber (t.seconds / 86400)).2.2 * 86400 +
          ((t.seconds % 86400).toNat / 3600 * 3600 + (t.seconds % 86400).toNat / 60 % 60 * 60 +
            (t.seconds % 86400).toNat % 60 : Nat) - 0 = t.seconds := by
      rw [dayNumber_civilOfNumber]
      omega
    rw [if_pos hyear]
    apply parse_of_reads hsize
      (reads_fields (d := ⟨_, _, _, hday⟩) hyear.1 hyear.2 t.isTime_clock) (by decide)
    rw [hseconds]
    exact dif_pos t.truncated.isInstant
  -- With a sign in front the date is refused, and so is the text.
  · rw [if_neg hyear]
    exact parse_of_error hsize (bind_error (day_of_signed hyear _ _ _))

end Instant

end GraphCodec.Calendar
