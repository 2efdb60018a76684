import Mathlib
import GraphCodec.Proofs.Calendar.Timestamps

/-!
# What a timestamp is read from

The texts that are read as timestamps are dates of three numbers with hyphens between them, alone or
with a blank and a time of three numbers with colons between them behind them; a time may end in a
point and a fraction (`Timestamp.parse_eq_ok_iff`).  The digits of a fraction may have an exponent
behind them, and the nanoseconds are those nearest to the fraction only if it is not too long
(`Timestamp.isText_of_parse`).  In turn every such text is read, with the numbers in it as fields
(`Timestamp.exists_parse_of_isText`).
-/

namespace GraphCodec.Calendar.Timestamp

open Decimal

/-! ### Fields and separators -/

/-- Splitting a text yields at least one part. -/
theorem splitAt_ne_nil (sep : Char) (cs : List Char) : splitAt sep cs ≠ [] := by
  cases cs with
  | nil => exact List.cons_ne_nil _ _
  | cons c cs =>
    rw [splitAt]
    split
    · exact List.cons_ne_nil _ _
    · split <;> exact List.cons_ne_nil _ _

/-- The first part goes up to the first separator. -/
theorem splitAt_eq_cons_iff {sep : Char} {cs part : List Char} {parts : List (List Char)} :
    splitAt sep cs = part :: parts ↔ sep ∉ part ∧
      (cs = part ∧ parts = [] ∨ ∃ rest, cs = part ++ sep :: rest ∧ splitAt sep rest = parts) := by
  constructor
  · intro h
    -- The first part takes in the characters up to the first separator.
    induction cs generalizing part with
    | nil =>
      -- Nothing is left, so the only part is empty.
      cases h
      exact ⟨List.not_mem_nil, Or.inl ⟨rfl, rfl⟩⟩
    | cons c cs ih =>
      rw [splitAt] at h
      split at h
      -- The separator is the first character, so the first part is empty.
      case isTrue hsep =>
        cases h
        exact ⟨List.not_mem_nil, Or.inr ⟨cs, by rw [hsep]; rfl, rfl⟩⟩
      case isFalse hsep =>
        -- Another character belongs to the first part of the rest.
        cases hcs : splitAt sep cs with
        | nil => exact absurd hcs (splitAt_ne_nil sep cs)
        | cons front others =>
          rw [hcs] at h
          cases h
          obtain ⟨hfront, hrest⟩ := ih hcs
          refine ⟨by simp [hfront, Ne.symm hsep], hrest.imp ?_ ?_⟩
          · rintro ⟨rfl, rfl⟩
            exact ⟨rfl, rfl⟩
          · rintro ⟨rest, rfl, hparts⟩
            exact ⟨rest, rfl, hparts⟩
  -- Conversely the text splits where it was put together.
  · rintro ⟨hpart, ⟨rfl, rfl⟩ | ⟨rest, rfl, rfl⟩⟩
    · exact splitAt_of_not_mem hpart
    · exact splitAt_append hpart rest

/-- A field holds no character other than digits and a plus sign. -/
theorem IsField.not_mem {cs : List Char} {n : Nat} (h : IsField cs n) {c : Char} (hc : ¬IsDigit c)
    (hplus : c ≠ '+') : c ∉ cs := by
  obtain ⟨ds, hds, rfl | rfl⟩ := h
  · exact fun hmem => hc (hds.isDigit c hmem)
  · rw [List.mem_cons, not_or]
    exact ⟨hplus, fun hmem => hc (hds.isDigit c hmem)⟩

/-- Three fields with separators between them. -/
def IsTriple (sep : Char) (cs : List Char) (a b c : Nat) : Prop :=
  ∃ as bs ds, IsField as a ∧ IsField bs b ∧ IsField ds c ∧ cs = as ++ sep :: (bs ++ sep :: ds)

/-- Three fields are found by splitting. -/
theorem isTriple_iff (sep : Char) (hsep : ¬IsDigit sep) (hplus : sep ≠ '+') {cs : List Char}
    {a b c : Nat} :
    IsTriple sep cs a b c ↔ ∃ as bs ds, splitAt sep cs = [as, bs, ds] ∧
      Numeral.readNat? as = some a ∧ Numeral.readNat? bs = some b ∧
        Numeral.readNat? ds = some c := by
  simp only [readNat?_eq_some_iff]
  constructor
  · rintro ⟨as, bs, ds, has, hbs, hds, rfl⟩
    -- No field holds the separator, so the text splits at the two separators.
    refine ⟨as, bs, ds, ?_, has, hbs, hds⟩
    rw [splitAt_append (has.not_mem hsep hplus), splitAt_append (hbs.not_mem hsep hplus),
      splitAt_of_not_mem (hds.not_mem hsep hplus)]
  -- Conversely the three parts are put together again; fewer or more parts are impossible.
  · rintro ⟨as, bs, ds, hsplit, has, hbs, hds⟩
    obtain ⟨-, ⟨-, h⟩ | ⟨rest, rfl, hrest⟩⟩ := splitAt_eq_cons_iff.1 hsplit
    · cases h
    obtain ⟨-, ⟨-, h⟩ | ⟨last, rfl, hlast⟩⟩ := splitAt_eq_cons_iff.1 hrest
    · cases h
    obtain ⟨-, ⟨rfl, -⟩ | ⟨_, -, h⟩⟩ := splitAt_eq_cons_iff.1 hlast
    · exact ⟨as, bs, last, has, hbs, hds, rfl⟩
    · exact absurd h (splitAt_ne_nil sep _)

/-! ### Dates, times and timestamps -/

/-- A date: year, month and day with hyphens between them. -/
def IsDateText (cs : List Char) (d : Day) : Prop :=
  ∃ year : Nat, d.year = year ∧ IsTriple '-' cs year d.month d.day

/-- A time: hour, minute and second with colons between them, and perhaps a point and a fraction;
`Fraction` says which texts are fractions, and of how many nanoseconds. -/
inductive IsTimeText (Fraction : List Char → Nat → Prop) : List Char → Time → Prop where
  | whole {clock : List Char} {t : Time} (hclock : IsTriple ':' clock t.hour t.minute t.second)
      (hnanos : t.nanos = 0) : IsTimeText Fraction clock t
  | fraction {clock fraction : List Char} {t : Time}
      (hclock : IsTriple ':' clock t.hour t.minute t.second)
      (hfraction : Fraction fraction t.nanos) : IsTimeText Fraction (clock ++ '.' :: fraction) t

/-- A timestamp: a date, which alone means midnight, or a date and a time with a blank between
them. -/
inductive IsText (Fraction : List Char → Nat → Prop) : List Char → Timestamp → Prop where
  | date {date : List Char} {day : Day} (hdate : IsDateText date day) :
      IsText Fraction date ⟨day, Time.midnight⟩
  | time {date time : List Char} {t : Timestamp} (hdate : IsDateText date t.day)
      (htime : IsTimeText Fraction time t.time) : IsText Fraction (date ++ ' ' :: time) t

/-- A day is made of its fields exactly if it has them. -/
private theorem of?_day_eq_some_iff {year : Int} {month day : Nat} {d : Day} :
    Day.of? year month day = some d ↔ d.year = year ∧ d.month = month ∧ d.day = day := by
  unfold Day.of?
  constructor
  · intro h
    split at h <;> cases h
    exact ⟨rfl, rfl, rfl⟩
  · rintro ⟨rfl, rfl, rfl⟩
    exact dif_pos d.isDay

/-- A time is made of its fields exactly if it has them. -/
private theorem of?_time_eq_some_iff {hour minute second nanos : Nat} {t : Time} :
    Time.of? hour minute second nanos = some t ↔
      t.hour = hour ∧ t.minute = minute ∧ t.second = second ∧ t.nanos = nanos := by
  unfold Time.of?
  constructor
  · intro h
    split at h <;> cases h
    exact ⟨rfl, rfl, rfl, rfl⟩
  · rintro ⟨rfl, rfl, rfl, rfl⟩
    exact dif_pos t.isTime

/-- A day is read from a date. -/
private theorem readDay?_eq_some_iff {cs : List Char} {d : Day} :
    readDay? cs = some d ↔ IsDateText cs d := by
  unfold IsDateText
  simp only [isTriple_iff '-' (by decide) (by decide)]
  constructor
  · intro h
    unfold readDay? at h
    split at h
    case h_1 year month day hsplit =>
      -- The three parts were read as numbers, and the numbers as a day.
      simp only [Option.bind_eq_bind, Option.bind_eq_some_iff] at h
      obtain ⟨y, hy, m, hm, n, hn, hday⟩ := h
      obtain ⟨hyear, rfl, rfl⟩ := of?_day_eq_some_iff.1 hday
      exact ⟨y, hyear, _, _, _, hsplit, hy, hm, hn⟩
    -- A text of fewer or more parts is not a day.
    case h_2 => cases h
  -- Conversely the numbers are those of the fields.
  · rintro ⟨y, hyear, year, month, day, hsplit, hy, hm, hn⟩
    simp only [readDay?, hsplit, hy, hm, hn, Option.bind_eq_bind, Option.bind_some]
    exact of?_day_eq_some_iff.2 ⟨hyear, rfl, rfl⟩

/-- A time is read from the text of a clock and the nanoseconds behind it. -/
private theorem clock_eq_some_iff (nanos? : Option Nat) {clock : List Char} {t : Time} :
    (nanos? >>= fun nanos => match splitAt ':' clock with
      | [hour, minute, second] => do
        Time.of? (← Numeral.readNat? hour) (← Numeral.readNat? minute) (← Numeral.readNat? second)
          nanos
      | _ => none) = some t ↔
      IsTriple ':' clock t.hour t.minute t.second ∧ nanos? = some t.nanos := by
  rw [isTriple_iff ':' (by decide) (by decide)]
  constructor
  · intro h
    -- The nanoseconds are read first, then the three fields of the clock.
    obtain ⟨nanos, hnanos, hclock⟩ := Option.bind_eq_some_iff.1 h
    split at hclock
    case h_1 hour minute second hsplit =>
      simp only [Option.bind_eq_bind, Option.bind_eq_some_iff] at hclock
      obtain ⟨i, hi, j, hj, k, hk, htime⟩ := hclock
      obtain ⟨rfl, rfl, rfl, rfl⟩ := of?_time_eq_some_iff.1 htime
      exact ⟨⟨hour, minute, second, hsplit, hi, hj, hk⟩, hnanos⟩
    case h_2 => cases hclock
  · rintro ⟨⟨hour, minute, second, hsplit, hi, hj, hk⟩, rfl⟩
    simp only [hsplit, hi, hj, hk, Option.bind_eq_bind, Option.bind_some]
    exact of?_time_eq_some_iff.2 ⟨rfl, rfl, rfl, rfl⟩

/-- There are no points and blanks in three fields. -/
theorem IsTriple.not_mem {sep : Char} {cs : List Char} {a b c : Nat} (h : IsTriple sep cs a b c)
    {d : Char} (hd : ¬IsDigit d) (hplus : d ≠ '+') (hsep : d ≠ sep) : d ∉ cs := by
  obtain ⟨as, bs, ds, has, hbs, hds, rfl⟩ := h
  simp [has.not_mem hd hplus, hbs.not_mem hd hplus, hds.not_mem hd hplus, hsep]

/-- The text of a clock ends at the first point. -/
private theorem IsTriple.span {clock : List Char} {a b c : Nat} (h : IsTriple ':' clock a b c)
    (rest : List Char) (hrest : rest.head?.all (· = '.')) :
    (clock ++ rest).span (· ≠ '.') = (clock, rest) := by
  -- No character of the clock is a point, and what is behind it begins with one.
  apply List.span_append
  · intro d hd
    have hne : d ≠ '.' := by
      rintro rfl
      exact h.not_mem (by decide) (by decide) (by decide) hd
    simpa using hne
  · intro d hd
    rw [Option.mem_def.1 hd] at hrest
    simpa using hrest

/-- A time is read from a time whose fraction is read. -/
private theorem readTime?_eq_some_iff {cs : List Char} {t : Time} :
    readTime? cs = some t ↔ IsTimeText (fun fs n => readFraction? fs = some n) cs t := by
  constructor
  · intro h
    -- The clock is what stands in front of the first point.
    have hcs := List.takeWhile_append_dropWhile (p := fun c => decide (c ≠ '.')) (l := cs)
    have hhead := List.head?_dropWhile_not (fun c => decide (c ≠ '.')) cs
    rw [← hcs]
    unfold readTime? at h
    rw [List.span_eq_takeWhile_dropWhile] at h
    generalize cs.takeWhile (fun c => decide (c ≠ '.')) = clock at *
    -- What is behind the clock is nothing, or begins with the point at which the clock ended.
    cases hrest : cs.dropWhile (fun c => decide (c ≠ '.')) with
    | nil =>
      rw [hrest] at h
      obtain ⟨hclock, hnanos⟩ := (clock_eq_some_iff (some 0)).1 h
      rw [List.append_nil]
      exact .whole hclock (Option.some.inj hnanos).symm
    | cons c fraction =>
      rw [hrest] at h hhead
      obtain ⟨hclock, hnanos⟩ := (clock_eq_some_iff _).1 h
      obtain rfl : c = '.' := by simpa using hhead
      exact .fraction hclock hnanos
  -- Conversely the clock ends at the point behind it, or with the text.
  · intro h
    unfold readTime?
    cases h with
    | whole hclock hnanos =>
      have hspan := hclock.span [] rfl
      rw [List.append_nil] at hspan
      rw [hspan]
      exact (clock_eq_some_iff _).2 ⟨hclock, by rw [hnanos]⟩
    | fraction hclock hfraction =>
      rw [hclock.span _ rfl]
      exact (clock_eq_some_iff _).2 ⟨hclock, hfraction⟩

/-- Only digits, signs, colons, points and what the fraction holds are in a time. -/
theorem IsTimeText.not_mem {Fraction : List Char → Nat → Prop} {cs : List Char} {t : Time}
    (h : IsTimeText Fraction cs t) {c : Char} (hc : ¬IsDigit c) (hplus : c ≠ '+') (hcolon : c ≠ ':')
    (hpoint : c ≠ '.') (hfraction : ∀ fs n, Fraction fs n → c ∉ fs) : c ∉ cs := by
  cases h with
  | whole hclock => exact hclock.not_mem hc hplus hcolon
  | fraction hclock hfs =>
    simp [hclock.not_mem hc hplus hcolon, hpoint, hfraction _ _ hfs]

/-- A fraction that is read holds digits and perhaps a mark and a sign. -/
private theorem mem_of_readFraction? {fs : List Char} {n : Nat} (h : readFraction? fs = some n)
    {c : Char} (hc : c ∈ fs) : IsDigit c ∨ c ∈ ['e', 'E', '+', '-'] := by
  -- The characters are those of the digits, of the mark, of the sign and of the exponent.
  obtain ⟨ds, exponent, e, rfl, hds, hexponent, -⟩ := readFraction?_eq_some_iff.1 h
  rcases List.mem_append.1 hc with hc | hc
  · exact Or.inl (hds c hc)
  cases hexponent with
  | none => cases hc
  | mark hmark hsign hes =>
    rcases List.mem_cons.1 hc with rfl | hc
    · exact Or.inr (by rcases hmark with rfl | rfl <;> simp)
    rcases List.mem_append.1 hc with hc | hc
    · exact Or.inr (by cases hsign <;> simp_all)
    · exact Or.inl (hes.isDigit c hc)

/-- A timestamp is read from a text whose fraction is read. -/
theorem parse_eq_ok_iff {s : String} {t : Timestamp} :
    parse s = .ok t ↔ IsText (fun fs n => readFraction? fs = some n) s.toList t := by
  constructor
  · intro h
    unfold parse at h
    -- The parts are as many as are read: behind a last blank there would be one part more.
    split at h
    -- The date alone.
    case h_1 date hsplit =>
      obtain ⟨-, ⟨hs, -⟩ | ⟨_, -, hrest⟩⟩ := splitAt_eq_cons_iff.1 hsplit
      case inr => exact absurd hrest (splitAt_ne_nil ' ' _)
      rw [hs]
      split at h
      case h_1 day hday =>
        cases h
        exact .date (readDay?_eq_some_iff.1 hday)
      case h_2 => cases h
    -- The date and the time behind the blank.
    case h_2 date time hsplit =>
      obtain ⟨-, ⟨-, hrest⟩ | ⟨rest, hs, hrest⟩⟩ := splitAt_eq_cons_iff.1 hsplit
      case inl => cases hrest
      obtain ⟨-, ⟨rfl, -⟩ | ⟨_, -, hlast⟩⟩ := splitAt_eq_cons_iff.1 hrest
      case inr => exact absurd hlast (splitAt_ne_nil ' ' _)
      rw [hs]
      split at h
      case h_1 day time' hday htime =>
        cases h
        exact .time (readDay?_eq_some_iff.1 hday) (readTime?_eq_some_iff.1 htime)
      all_goals cases h
    -- With more than two parts nothing is read.
    case h_3 => cases h
  · intro h
    -- Neither a date nor a time has a blank in it, so the text splits where it was put together.
    have hblank : ∀ {date : List Char} {d : Day}, IsDateText date d → ' ' ∉ date := by
      rintro date d ⟨year, -, hdate⟩
      exact hdate.not_mem (by decide) (by decide) (by decide)
    unfold parse
    generalize s.toList = cs at *
    cases h with
    | date hdate =>
      rw [splitAt_of_not_mem (hblank hdate)]
      simp only [readDay?_eq_some_iff.2 hdate]
    | time hdate htime =>
      have htimeBlank : ' ' ∉ _ := htime.not_mem (by decide) (by decide) (by decide) (by decide)
        fun fs n hfs hmem => absurd (mem_of_readFraction? hfs hmem) (by decide)
      rw [splitAt_append (hblank hdate), splitAt_of_not_mem htimeBlank]
      simp only [readDay?_eq_some_iff.2 hdate, readTime?_eq_some_iff.2 htime]

/-! ### Fractions -/

/-- The part of a second that digits behind a point stand for. -/
def fractionValue (ds : List Char) : ℚ := ofDigits (ds.map digitValue) / 10 ^ ds.length

/-- A fraction that is nothing but digits, and the nanoseconds nearest to it. -/
def IsPlainFraction (fs : List Char) (n : Nat) : Prop :=
  (∀ c ∈ fs, IsDigit c) ∧ IsNanos 0 (fractionValue fs) n

/-- A fraction that may have an exponent, and nanoseconds that are nearest to it up to the share of
two roundings; they are the nearest ones if there is no exponent and the digits are few. -/
def IsRoundedFraction (fs : List Char) (n : Nat) : Prop :=
  ∃ ds exponent e, fs = ds ++ exponent ∧ (∀ c ∈ ds, IsDigit c) ∧ IsExponent exponent e ∧
    IsNanos (1 / 2 ^ 51) (fractionValue ds * 10 ^ e) n ∧
    (exponent = [] → ds.length ≤ 15 → IsNanos 0 (fractionValue ds) n)

/-- The decimal that is rounded for a fraction. -/
private theorem value_fraction (ds : List Char) (e : Int) :
    Decimal.value ⟨ofDigits (ds.map digitValue), e - ds.length⟩ = fractionValue ds * 10 ^ e := by
  rw [Decimal.value, fractionValue, zpow_sub₀ (by norm_num), zpow_natCast]
  ring

/-- Digits behind a point stand for less than one second. -/
private theorem ofDigits_lt_pow {ds : List Char} (h : ∀ c ∈ ds, IsDigit c) :
    ofDigits (ds.map digitValue) < 10 ^ ds.length := by
  have hlt : ∀ d ∈ ds.map digitValue, d < 10 := by
    intro d hd
    obtain ⟨c, hc, rfl⟩ := List.mem_map.1 hd
    exact digitValue_lt (h c hc)
  simpa using ofDigits_lt hlt

/-- A fraction that is read stands for its nanoseconds. -/
private theorem isRoundedFraction_of_read {fs : List Char} {n : Nat}
    (h : readFraction? fs = some n) :
    IsRoundedFraction fs n := by
  -- The double of the fraction is that of its digits and its exponent.
  obtain ⟨ds, exponent, e, rfl, hds, hexponent, rfl⟩ := readFraction?_eq_some_iff.1 h
  have hnanos := nanosOf_ofDecimal ⟨ofDigits (ds.map digitValue), e - ds.length⟩
  rw [value_fraction] at hnanos
  refine ⟨ds, exponent, e, rfl, hds, hexponent, hnanos, ?_⟩
  -- Without an exponent and with few enough digits the nanoseconds are the nearest ones.
  rintro rfl hlength
  cases hexponent
  rw [zpow_zero, mul_one] at hnanos
  exact IsNanos.nearest (ofDigits_lt_pow hds) hlength hnanos

/-- A timestamp text is one for any weaker condition on its fraction. -/
private theorem IsText.mono {Fraction Fraction' : List Char → Nat → Prop} {cs : List Char}
    {t : Timestamp} (hmono : ∀ fs n, Fraction fs n → Fraction' fs n) (h : IsText Fraction cs t) :
    IsText Fraction' cs t := by
  cases h with
  | date hdate => exact .date hdate
  | time hdate htime =>
    refine .time hdate ?_
    cases htime with
    | whole hclock hnanos => exact .whole hclock hnanos
    | fraction hclock hfraction => exact .fraction hclock (hmono _ _ hfraction)

/-- Every fraction is read, as some part of a second. -/
private theorem IsRoundedFraction.exists_read {fs : List Char} {n : Nat}
    (h : IsRoundedFraction fs n) :
    ∃ m ≤ greatestNanos, readFraction? fs = some m := by
  obtain ⟨ds, exponent, e, rfl, hds, hexponent, -⟩ := h
  obtain ⟨k, -, hk⟩ := nanosOf_ofDecimal ⟨ofDigits (ds.map digitValue), e - ds.length⟩
  refine ⟨_, ?_, readFraction?_eq_some_iff.2 ⟨ds, exponent, e, rfl, hds, hexponent, rfl⟩⟩
  rw [hk]
  exact Nat.min_le_right _ _

/-- Every such date, alone or with a time behind it, is read, with the numbers in it as fields. -/
theorem exists_parse_of_isText {s : String} {t : Timestamp}
    (h : IsText IsRoundedFraction s.toList t) : ∃ r, parse s = .ok r ∧ r.day = t.day ∧
      r.time.hour = t.time.hour ∧ r.time.minute = t.time.minute ∧
      r.time.second = t.time.second := by
  obtain ⟨day, time⟩ := t
  simp only [parse_eq_ok_iff]
  generalize s.toList = cs at *
  -- A date is read as it is, and so is a whole second; a fraction is read as some nanoseconds.
  cases h with
  | date hdate => exact ⟨_, .date hdate, rfl, rfl, rfl, rfl⟩
  | time hdate htime =>
    cases htime with
    | whole hclock hnanos =>
      exact ⟨⟨day, time⟩, .time hdate (.whole hclock hnanos), rfl, rfl, rfl, rfl⟩
    | fraction hclock hfraction =>
      -- The nanoseconds may be others than those of `t`, and still belong to the same second.
      obtain ⟨m, hm, hread⟩ := hfraction.exists_read
      have htime : IsTime time.hour time.minute time.second m := by
        have := time.isTime
        unfold greatestNanos at hm
        unfold IsTime at this ⊢
        omega
      exact ⟨⟨day, ⟨time.hour, time.minute, time.second, m, htime⟩⟩,
        .time hdate (.fraction hclock hread), rfl, rfl, rfl, rfl⟩

/-- What is read as a timestamp is a date, alone or with a time behind it; the fields of the
timestamp are the numbers in it, and its nanoseconds are those of the fraction. -/
theorem isText_of_parse {s : String} {t : Timestamp} (h : parse s = .ok t) :
    IsText IsRoundedFraction s.toList t :=
  (parse_eq_ok_iff.1 h).mono fun _ _ => isRoundedFraction_of_read

/-- A date with leading zeros, a time with signs and a fraction with an exponent. -/
theorem isText_of_parse_signed :
    parse "02024-2-29 +1:+2:3.25e-1" =
        .ok ⟨⟨2024, 2, 29, by decide⟩, ⟨1, 2, 3, 25000000, by decide⟩⟩ ∧
      IsText IsRoundedFraction "02024-2-29 +1:+2:3.25e-1".toList
        ⟨⟨2024, 2, 29, by decide⟩, ⟨1, 2, 3, 25000000, by decide⟩⟩ :=
  ⟨by decide +kernel, isText_of_parse (by decide +kernel)⟩

/-- Only digits, signs, hyphens, colons, points, blanks and what the fraction holds are in a
timestamp. -/
private theorem IsText.not_mem {Fraction : List Char → Nat → Prop} {cs : List Char} {t : Timestamp}
    (h : IsText Fraction cs t) {c : Char} (hc : ¬IsDigit c) (hother : c ∉ "+-:. ".toList)
    (hfraction : ∀ fs n, Fraction fs n → c ∉ fs) : c ∉ cs := by
  -- The other characters are listed one by one.
  have hne : c ≠ '+' ∧ c ≠ '-' ∧ c ≠ ':' ∧ c ≠ '.' ∧ c ≠ ' ' := by simpa using hother
  obtain ⟨hplus, hhyphen, hcolon, hpoint, hblank⟩ := hne
  cases h with
  | date hdate => exact hdate.elim fun _ hdate => hdate.2.not_mem hc hplus hhyphen
  | time hdate htime =>
    have hdate := hdate.elim fun _ hdate => hdate.2.not_mem hc hplus hhyphen
    simp [hdate, hblank, htime.not_mem hc hplus hcolon hpoint hfraction]

/-- A text that is read may have an exponent behind the digits of its fraction, and the nanoseconds
of a fraction that is nothing but digits need not be the nearest ones: a half is rounded up that the
digits stay below. -/
theorem not_isPlainFraction :
    (¬∀ (s : String) (t : Timestamp), parse s = .ok t → IsText IsPlainFraction s.toList t) ∧
      ¬∀ (fs : List Char) (n : Nat), (∀ c ∈ fs, IsDigit c) → readFraction? fs = some n →
        IsNanos 0 (fractionValue fs) n := by
  constructor
  · intro h
    have htext := h "2024-01-01 00:00:00.5e3"
      ⟨⟨2024, 1, 1, by decide⟩, ⟨0, 0, 0, 999999999, by decide⟩⟩ (by decide +kernel)
    exact htext.not_mem (c := 'e') (by decide) (by decide)
      (fun fs n hfs hmem => absurd (hfs.1 'e' hmem) (by decide)) (by decide)
  · intro h
    -- These are 123456788.49999999999999 nanoseconds, for which the double 123456788.5 is rounded.
    have hvalues : digitValues? "12345678849999999999999".toList =
        some ([1, 2, 3, 4, 5, 6, 7, 8, 8, 4] ++ List.replicate 13 9) := by decide +kernel
    obtain ⟨k, hk, hn⟩ := h "12345678849999999999999".toList 123456789
      (digitValues?_eq_some_iff.1 hvalues).1 (by decide +kernel)
    have hdigits : ofDigits ("12345678849999999999999".toList.map digitValue) =
        12345678849999999999999 := by
      rw [← (digitValues?_eq_some_iff.1 hvalues).2]
      rfl
    have hlength : "12345678849999999999999".toList.length = 23 := rfl
    have hk' : k = 123456789 := by
      unfold greatestNanos at hn
      omega
    rw [fractionValue, hdigits, hlength, hk'] at hk
    norm_num [abs_of_pos] at hk

end GraphCodec.Calendar.Timestamp
