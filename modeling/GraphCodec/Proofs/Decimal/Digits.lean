import GraphCodec.Decimal.Numeral
import GraphCodec.Text.Blank

/-!
# Digits that read back

The decimal text of a number reads back as the number: `digitValues?_digitsOf` for the digits of a
natural number, `readInt?_intText` for the text of an integer.  The digits of a number that is not
zero do not begin with a zero (`head_digitsOf_ne`), so they are the whole part of a JSON number as
they stand.
-/

namespace GraphCodec.Decimal

/-- The value of a character as a digit, for a character that is one. -/
def digitValue (c : Char) : Nat := c.toNat - '0'.toNat

/-- Whether a character is an ASCII digit. -/
def IsDigit (c : Char) : Prop := digitValue? c = some (digitValue c)

instance (c : Char) : Decidable (IsDigit c) :=
  inferInstanceAs (Decidable (digitValue? c = some (digitValue c)))

/-- A character that is a digit by its code is one with a value. -/
private theorem isDigit_of_isDigit {c : Char} (h : c.isDigit = true) : IsDigit c := by
  have h' : '0' ≤ c ∧ c ≤ '9' := by
    simp only [Char.isDigit, Bool.and_eq_true, decide_eq_true_eq] at h
    exact ⟨h.1, h.2⟩
  rw [IsDigit, digitValue?, if_pos h', digitValue]

theorem digitValue?_eq_none {c : Char} (h : ¬('0' ≤ c ∧ c ≤ '9')) : digitValue? c = none := by
  rw [digitValue?, if_neg h]

/-- The code points of the digits. -/
theorem IsDigit.toNat_bounds {c : Char} (h : IsDigit c) : 48 ≤ c.toNat ∧ c.toNat ≤ 57 := by
  have hr : '0' ≤ c ∧ c ≤ '9' := by
    refine Decidable.byContradiction fun hn => ?_
    rw [IsDigit, digitValue?_eq_none hn] at h
    cases h
  exact hr

/-- The ten digits. -/
theorem IsDigit.eq_or {c : Char} (h : IsDigit c) :
    c = '0' ∨ c = '1' ∨ c = '2' ∨ c = '3' ∨ c = '4' ∨ c = '5' ∨ c = '6' ∨ c = '7' ∨ c = '8' ∨
      c = '9' := by
  have ⟨hlo, hhi⟩ := h.toNat_bounds
  simp only [← Char.toNat_inj, Char.reduceToNat]
  omega

/-- Every character of the digits of a number is a digit. -/
theorem isDigit_of_mem_digitsOf {n : Nat} {c : Char} (h : c ∈ digitsOf n) : IsDigit c :=
  isDigit_of_isDigit (Nat.isDigit_of_mem_toDigits (by decide) (by decide) h)

theorem digitsOf_ne_nil (n : Nat) : digitsOf n ≠ [] := Nat.toDigits_ne_nil

theorem isDigit_zero : IsDigit '0' := rfl

theorem digitsOf_zero : digitsOf 0 = ['0'] := rfl

/-- The digits of a positive number do not begin with a zero. -/
theorem head_digitsOf_ne {n : Nat} (h : 0 < n) : (digitsOf n).head? ≠ some '0' := by
  induction n using Nat.strongRecOn with
  | ind n ih =>
    rw [digitsOf, Nat.toDigits_eq_if (by decide)]
    split
    case isTrue hn =>
      -- A single digit; only zero has the digit zero.
      intro hc
      have hz : Nat.digitChar n = '0' := by simpa using hc
      have := Nat.toNat_digitChar_sub_48_of_lt_ten hn
      rw [hz] at this
      simp at this
      omega
    case isFalse hn =>
      have ih := ih (n / 10) (by omega) (by omega)
      have hne : Nat.toDigits 10 (n / 10) ≠ [] := Nat.toDigits_ne_nil
      rw [List.head?_append, List.head?_eq_some_head hne, Option.some_or,
        ← List.head?_eq_some_head hne]
      exact ih

/-- Digits read as their values. -/
theorem digitValues?_of_isDigit {cs : List Char} (h : ∀ c ∈ cs, IsDigit c) :
    digitValues? cs = some (cs.map digitValue) := by
  induction cs with
  | nil => rfl
  | cons c cs ih =>
    -- The first digit has a value, and so have the others.
    have hc : digitValue? c = some (digitValue c) := h c List.mem_cons_self
    have ih := ih fun d hd => h d (List.mem_cons_of_mem c hd)
    rw [digitValues?] at ih ⊢
    simp only [List.mapM_cons, hc, ih, List.map_cons]
    rfl

/-- The digits of a number denote the number. -/
theorem ofDigits_digitsOf (n : Nat) : ofDigits ((digitsOf n).map digitValue) = n := by
  -- Both ways of reading digits go through them from the front.
  have h : ∀ (cs : List Char) (k : Nat),
      (cs.map digitValue).foldl (fun n d => 10 * n + d) k = Nat.ofDigitChars 10 cs k := by
    intro cs
    induction cs with
    | nil => intro k; simp
    | cons c cs ih => intro k; rw [List.map_cons, List.foldl_cons, ih, Nat.ofDigitChars_cons]; rfl
  rw [ofDigits, h]
  exact Nat.ofDigitChars_ten_toDigits

/-- The digits of a number are read. -/
theorem digitValues?_digitsOf (n : Nat) :
    digitValues? (digitsOf n) = some ((digitsOf n).map digitValue) :=
  digitValues?_of_isDigit fun _ => isDigit_of_mem_digitsOf

/-- A digit is no sign. -/
private theorem splitSign_digitsOf (n : Nat) :
    Numeral.splitSign (digitsOf n) = (false, digitsOf n) := by
  cases h : digitsOf n with
  | nil => exact absurd h (digitsOf_ne_nil n)
  | cons c cs =>
    have hc : IsDigit c := isDigit_of_mem_digitsOf (n := n) (by rw [h]; exact List.mem_cons_self)
    unfold Numeral.splitSign
    -- Neither of the two signs is a digit.
    split
    · rename_i heq
      rw [List.cons.injEq] at heq
      rw [heq.1] at hc
      exact absurd hc (by decide)
    · rename_i heq
      rw [List.cons.injEq] at heq
      rw [heq.1] at hc
      exact absurd hc (by decide)
    · rfl

/-- The text of an integer reads back as the integer. -/
theorem readInt?_intText (i : Int) : Numeral.readInt? (intText i) = some i := by
  have hne : (digitsOf i.natAbs).isEmpty = false := by
    rw [List.isEmpty_eq_false_iff]
    exact digitsOf_ne_nil _
  unfold Numeral.readInt? intText
  rw [String.toList_ofList]
  -- A negative integer has its sign in front of its digits.
  by_cases hi : i < 0
  · have hs : Numeral.splitSign ('-' :: digitsOf i.natAbs) = (true, digitsOf i.natAbs) := rfl
    rw [if_pos hi, hs]
    simp only [hne, digitValues?_digitsOf, ofDigits_digitsOf, bind, Option.bind]
    simp only [Bool.false_eq_true, if_false, if_true, Option.some.injEq]
    omega
  · rw [if_neg hi, splitSign_digitsOf]
    simp only [hne, digitValues?_digitsOf, ofDigits_digitsOf, bind, Option.bind]
    simp only [Bool.false_eq_true, if_false, Option.some.injEq]
    omega

/-! ### Blanks around a numeral -/

/-- Dropping blanks changes nothing where there are none. -/
private theorem trimStart_eq_self {cs : List Char} (h : ∀ c ∈ cs, Text.isBlank c = false) :
    Text.trimStart cs = cs := by
  cases cs with
  | nil => rfl
  | cons c cs =>
    have hc := h c List.mem_cons_self
    rw [Text.trimStart, List.dropWhile_cons_of_neg (by rw [hc]; exact Bool.false_ne_true)]

/-- A text without blanks is its own trimmed form. -/
private theorem trim_eq_self {s : String} (h : ∀ c ∈ s.toList, Text.isBlank c = false) :
    Text.trim s = s := by
  rw [Text.trim, trimStart_eq_self h,
    trimStart_eq_self fun c hc => h c (List.mem_reverse.1 hc), List.reverse_reverse,
    String.ofList_toList]

/-- A digit is not blank. -/
theorem isBlank_of_isDigit {c : Char} (h : IsDigit c) : Text.isBlank c = false := by
  have ⟨hlo, hhi⟩ := h.toNat_bounds
  simp only [Text.isBlank, Bool.or_eq_false_iff, Bool.and_eq_false_iff, decide_eq_false_iff_not]
  omega

/-- The characters of the text of an integer are digits but for a minus sign. -/
private theorem isDigit_of_mem_intText {i : Int} {c : Char} (h : c ∈ (intText i).toList) :
    c = '-' ∨ IsDigit c := by
  rw [intText, String.toList_ofList] at h
  split at h
  · rcases List.mem_cons.1 h with rfl | h
    · exact Or.inl rfl
    · exact Or.inr (isDigit_of_mem_digitsOf h)
  · exact Or.inr (isDigit_of_mem_digitsOf h)

/-- The text of an integer has no blanks around it. -/
theorem trim_intText (i : Int) : Text.trim (intText i) = intText i := by
  refine trim_eq_self fun c hc => ?_
  rcases isDigit_of_mem_intText hc with rfl | hd
  · decide
  · exact isBlank_of_isDigit hd

end GraphCodec.Decimal
