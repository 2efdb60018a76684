import GraphCodec.Json.Scanner
import GraphCodec.Proofs.Decimal.Digits

/-!
# Scanning the text of a number

A `NumberText` is a number as the grammar has it: a sign, digits without a leading zero, a fraction,
an exponent with an explicit sign.  The scanner reads the whole of such a text as one value
(`Scanner.run_numberText`), provided that what follows it ends a value (`EndsValue`), because only
the character after a number tells that it has ended.
-/

namespace GraphCodec.Json

open Decimal

/-- The parts of the text of a number. -/
structure NumberText where
  negative : Bool
  whole : List Char
  /-- The digits after the point; without any there is no point. -/
  fraction : List Char
  /-- Whether the exponent is negative, and its digits. -/
  exponent : Option (Bool × List Char)

namespace NumberText

/-- The text of a fraction. -/
def fractionChars (digits : List Char) : List Char :=
  if digits.isEmpty then [] else '.' :: digits

/-- The text of an exponent. -/
def exponentChars : Option (Bool × List Char) → List Char
  | none => []
  | some (negative, digits) => 'e' :: (if negative then '-' else '+') :: digits

/-- The text of a number. -/
def chars (t : NumberText) : List Char :=
  (if t.negative then ['-'] else []) ++
    (t.whole ++ (fractionChars t.fraction ++ exponentChars t.exponent))

/-- The grammar of numbers. -/
structure WellFormed (t : NumberText) : Prop where
  whole : ∀ c ∈ t.whole, IsDigit c
  whole_ne_nil : t.whole ≠ []
  leading : t.whole.head? = some '0' → t.whole = ['0']
  fraction : ∀ c ∈ t.fraction, IsDigit c
  exponent : ∀ e ∈ t.exponent, e.2 ≠ [] ∧ ∀ c ∈ e.2, IsDigit c

/-- The exponent that is written. -/
def exponentValue (e : Bool × List Char) : Int :=
  let n : Int := ofDigits (e.2.map digitValue)
  if e.1 then -n else n

/-- The numeral that a text is. -/
def numeral (t : NumberText) : Numeral where
  negative := t.negative
  whole := t.whole.map digitValue
  fraction := t.fraction.map digitValue
  exponent := t.exponent.map exponentValue

end NumberText

/-- The draft of a numeral. -/
def numeralDraft (n : Numeral) : Draft :=
  match Number.ofNumeral? n with
  | some m => .number m
  | none => .unreadable .numberOutOfRange

/-- What may follow a value: nothing, or a character at which a number ends. -/
def EndsValue (rest : List Char) : Prop :=
  ∀ d : Digits, d.isComplete = true → ∀ c ∈ rest.head?, d.step c = .ended

/-- The end of the text ends a value. -/
theorem endsValue_nil : EndsValue [] := by
  intro d hd c hc
  cases hc

/-- A number ends at a character that ends an element or a member. -/
theorem endsValue_cons {c : Char} {r : List Char} (h : c = ',' ∨ c = ']' ∨ c = '}') :
    EndsValue (c :: r) := by
  intro d hd c' hc'
  cases hc'
  obtain ⟨phase, _, _, _, _, _⟩ := d
  rcases h with rfl | rfl | rfl <;> cases phase <;> first | rfl | cases hd

/-- A number ends at the end of a line. -/
theorem endsValue_break (r : List Char) : EndsValue ('\n' :: r) := by
  intro d hd c hc
  cases hc
  obtain ⟨phase, _, _, _, _, _⟩ := d
  cases phase <;> first | rfl | cases hd

namespace Scanner

variable {frames : List Frame} {rest : List Char}

/-- A character that fits is scanned, and then the rest. -/
theorem run_cons {s s' : Scanner} {c : Char} (h : s.step c = .ok s') :
    s.run (c :: rest) = s'.run rest := by
  rw [run, h]

/-- A character of a number. -/
theorem run_more {d d' : Digits} {c : Char} (h : d.step c = .more d') :
    run ⟨frames, .number d⟩ (c :: rest) = run ⟨frames, .number d'⟩ rest := by
  apply run_cons
  simp only [step, h]

/-- Digits that all go the same way: `put` is the number after the digits so far, last first. -/
theorem run_digits {put : List Nat → Digits}
    (hput : ∀ vs c, IsDigit c → (put vs).step c = .more (put (digitValue c :: vs)))
    {cs : List Char} (hcs : ∀ c ∈ cs, IsDigit c) (vs : List Nat) :
    run ⟨frames, .number (put vs)⟩ (cs ++ rest) =
      run ⟨frames, .number (put ((cs.map digitValue).reverse ++ vs))⟩ rest := by
  -- The first digit is put in front of those so far, and the rest follows.
  induction cs generalizing vs with
  | nil => rfl
  | cons c cs ih =>
    have hc := hput vs c (hcs c List.mem_cons_self)
    rw [List.cons_append, run_more hc, ih fun d hd => hcs d (List.mem_cons_of_mem c hd)]
    rw [List.map_cons, List.reverse_cons, List.append_assoc, List.singleton_append]

/-- The first digit of a number, behind its sign. -/
private theorem run_first (negative : Bool) {c : Char} (hc : IsDigit c) :
    run ⟨frames, .value⟩ ((if negative then ['-'] else []) ++ c :: rest) =
      run ⟨frames, .number (.first negative (digitValue c))⟩ rest := by
  -- Behind the minus sign a digit has to come.
  cases negative with
  | true =>
    have hs : step ⟨frames, .value⟩ '-' = .ok ⟨frames, .number .minus⟩ := rfl
    have hd : Digits.minus.step c = .more (.first true (digitValue c)) := by
      have hv : digitValue? c = some (digitValue c) := hc
      simp only [Digits.step, Digits.minus, hv]
    exact (run_cons hs).trans (run_more hd)
  -- Without a sign the digit itself begins the number.
  | false =>
    have hs : step ⟨frames, .value⟩ c = .ok ⟨frames, .number (.first false (digitValue c))⟩ := by
      rcases hc.eq_or with h | h | h | h | h | h | h | h | h | h <;> subst h <;> rfl
    exact run_cons hs

/-- The whole part of a number. -/
private theorem run_whole (frames : List Frame) (rest : List Char) (negative : Bool)
    {whole : List Char} (hw : ∀ c ∈ whole, IsDigit c) (hne : whole ≠ [])
    (hlead : whole.head? = some '0' → whole = ['0']) :
    ∃ phase, (phase = .zero ∨ phase = .whole) ∧
      run ⟨frames, .value⟩ ((if negative then ['-'] else []) ++ (whole ++ rest)) =
        run ⟨frames, .number ⟨phase, negative, (whole.map digitValue).reverse, [], false, []⟩⟩
          rest := by
  cases whole with
  | nil => exact absurd rfl hne
  | cons c cs =>
    have hc := hw c List.mem_cons_self
    rw [List.cons_append, run_first negative hc]
    -- A leading zero has a state of its own, in which no digit may follow.
    by_cases h0 : c = '0'
    · subst h0
      have hcs : cs = [] := by
        have := hlead rfl
        rwa [List.cons.injEq, and_iff_right rfl] at this
      subst hcs
      exact ⟨.zero, Or.inl rfl, rfl⟩
    · have hv : digitValue c ≠ 0 := by
        rcases hc.eq_or with h | h | h | h | h | h | h | h | h | h <;> subst h <;>
          first | exact absurd rfl h0 | decide
      refine ⟨.whole, Or.inr rfl, ?_⟩
      -- Every further digit belongs to the whole part.
      have hput : ∀ vs c, IsDigit c →
          (⟨.whole, negative, vs, [], false, []⟩ : Digits).step c =
            .more ⟨.whole, negative, digitValue c :: vs, [], false, []⟩ := by
        intro vs c hc
        have hv : digitValue? c = some (digitValue c) := hc
        simp only [Digits.step, hv]
      rw [Digits.first, if_neg hv,
        run_digits hput (fun d hd => hw d (List.mem_cons_of_mem c hd)) [digitValue c],
        List.map_cons, List.reverse_cons]

/-- The fraction of a number. -/
private theorem run_fraction (frames : List Frame) (rest : List Char) {phase : Digits.Phase}
    (hp : phase = .zero ∨ phase = .whole) (negative : Bool) (whole : List Nat)
    {fraction : List Char}
    (hf : ∀ c ∈ fraction, IsDigit c) :
    ∃ next, (next = .zero ∨ next = .whole ∨ next = .fraction) ∧
      run ⟨frames, .number ⟨phase, negative, whole, [], false, []⟩⟩
        (NumberText.fractionChars fraction ++ rest) =
      run ⟨frames, .number ⟨next, negative, whole, (fraction.map digitValue).reverse, false, []⟩⟩
        rest := by
  cases fraction with
  -- Without a fraction there is no point either.
  | nil => exact ⟨phase, by rcases hp with h | h <;> simp [h], rfl⟩
  -- The point asks for a digit, so the first one is read in another state than the others.
  | cons c cs =>
    refine ⟨.fraction, Or.inr (Or.inr rfl), ?_⟩
    have hpoint : (⟨phase, negative, whole, [], false, []⟩ : Digits).step '.' =
        .more ⟨.point, negative, whole, [], false, []⟩ := by
      rcases hp with rfl | rfl <;> rfl
    have hfirst : (⟨.point, negative, whole, [], false, []⟩ : Digits).step c =
        .more ⟨.fraction, negative, whole, [digitValue c], false, []⟩ := by
      have hv : digitValue? c = some (digitValue c) := hf c List.mem_cons_self
      simp only [Digits.step, hv]
    -- Every further digit belongs to the fraction.
    have hput : ∀ vs c, IsDigit c →
        (⟨.fraction, negative, whole, vs, false, []⟩ : Digits).step c =
          .more ⟨.fraction, negative, whole, digitValue c :: vs, false, []⟩ := by
      intro vs c hc
      have hv : digitValue? c = some (digitValue c) := hc
      simp only [Digits.step, hv]
    have hchars : NumberText.fractionChars (c :: cs) ++ rest = '.' :: c :: (cs ++ rest) := rfl
    rw [hchars, run_more hpoint, run_more hfirst,
      run_digits hput (fun d hd => hf d (List.mem_cons_of_mem c hd)) [digitValue c],
      List.map_cons, List.reverse_cons]

/-- The exponent of a number. -/
private theorem run_exponent (frames : List Frame) (rest : List Char) {phase : Digits.Phase}
    (hp : phase = .zero ∨ phase = .whole ∨ phase = .fraction) (negative : Bool)
    (whole fraction : List Nat) {e : Option (Bool × List Char)}
    (he : ∀ x ∈ e, x.2 ≠ [] ∧ ∀ c ∈ x.2, IsDigit c) :
    ∃ d : Digits, d.isComplete = true ∧
      d.numeral = ⟨negative, whole.reverse, fraction.reverse, e.map NumberText.exponentValue⟩ ∧
      run ⟨frames, .number ⟨phase, negative, whole, fraction, false, []⟩⟩
        (NumberText.exponentChars e ++ rest) = run ⟨frames, .number d⟩ rest := by
  cases e with
  -- Without an exponent the number is complete after its fraction.
  | none =>
    exact ⟨_, by rcases hp with rfl | rfl | rfl <;> rfl, rfl, rfl⟩
  | some x =>
    obtain ⟨sign, digits⟩ := x
    obtain ⟨hne, hd⟩ := he _ rfl
    cases digits with
    | nil => exact absurd rfl hne
    -- The mark, the sign and the first digit each lead to a state of their own.
    | cons c cs =>
      have hmark : (⟨phase, negative, whole, fraction, false, []⟩ : Digits).step 'e' =
          .more ⟨.mark, negative, whole, fraction, false, []⟩ := by
        rcases hp with rfl | rfl | rfl <;> rfl
      have hsign : (⟨.mark, negative, whole, fraction, false, []⟩ : Digits).step
          (if sign then '-' else '+') = .more ⟨.markSign, negative, whole, fraction, sign, []⟩ := by
        cases sign <;> rfl
      have hfirst : (⟨.markSign, negative, whole, fraction, sign, []⟩ : Digits).step c =
          .more ⟨.exponent, negative, whole, fraction, sign, [digitValue c]⟩ := by
        have hv : digitValue? c = some (digitValue c) := hd c List.mem_cons_self
        simp only [Digits.step, hv]
      -- Every further digit belongs to the exponent.
      have hput : ∀ vs c, IsDigit c →
          (⟨.exponent, negative, whole, fraction, sign, vs⟩ : Digits).step c =
            .more ⟨.exponent, negative, whole, fraction, sign, digitValue c :: vs⟩ := by
        intro vs c hc
        have hv : digitValue? c = some (digitValue c) := hc
        simp only [Digits.step, hv]
      have hchars : NumberText.exponentChars (some (sign, c :: cs)) ++ rest =
          'e' :: (if sign then '-' else '+') :: c :: (cs ++ rest) := rfl
      refine ⟨_, ?_, ?_, by
        rw [hchars, run_more hmark, run_more hsign, run_more hfirst,
          run_digits hput (fun d h => hd d (List.mem_cons_of_mem c h)) [digitValue c]]⟩
      -- The state is complete, and its digits are those that were read.
      · rfl
      · simp only [Digits.numeral, List.isEmpty_eq_false_iff.2 (List.append_ne_nil_of_right_ne_nil _
          (List.cons_ne_nil _ _)), List.reverse_append, List.reverse_reverse, Option.map_some,
          NumberText.exponentValue, List.map_cons]
        rfl

/-- A complete number ends where its value ends. -/
private theorem run_complete_number {d : Digits} (hd : d.isComplete = true)
    (hrest : EndsValue rest) :
    run ⟨frames, .number d⟩ rest = run (complete frames (numeralDraft d.numeral)) rest := by
  cases rest with
  -- The text ends with the number.
  | nil => simp only [run, finish, hd, if_true, complete]; rfl
  -- The character after the number is read by the state behind the value.
  | cons c r =>
    have hended : d.step c = .ended := hrest d hd c rfl
    have hstep : step ⟨frames, .number d⟩ c =
        step (complete frames (numeralDraft d.numeral)) c := by
      simp only [step, hended, complete]
      rfl
    rw [run, run, hstep]

/-- The text of a number is scanned as the value that its numeral denotes. -/
theorem run_numberText {t : NumberText} (ht : t.WellFormed) (hrest : EndsValue rest) :
    run ⟨frames, .value⟩ (t.chars ++ rest) =
      run (complete frames (numeralDraft t.numeral)) rest := by
  -- Whole part, fraction and exponent follow each other.
  obtain ⟨p, hp, hwhole⟩ := run_whole frames
    (NumberText.fractionChars t.fraction ++ (NumberText.exponentChars t.exponent ++ rest))
    t.negative ht.whole ht.whole_ne_nil ht.leading
  obtain ⟨q, hq, hfraction⟩ := run_fraction frames
    (NumberText.exponentChars t.exponent ++ rest) hp t.negative
    (t.whole.map digitValue).reverse ht.fraction
  obtain ⟨d, hd, hnumeral, hexponent⟩ := run_exponent frames rest hq t.negative
    (t.whole.map digitValue).reverse (t.fraction.map digitValue).reverse ht.exponent
  rw [List.reverse_reverse, List.reverse_reverse] at hnumeral
  have hchars : t.chars ++ rest = (if t.negative then ['-'] else []) ++ (t.whole ++
      (NumberText.fractionChars t.fraction ++ (NumberText.exponentChars t.exponent ++ rest))) := by
    simp only [NumberText.chars, List.append_assoc]
  rw [hchars, hwhole, hfraction, hexponent, run_complete_number hd hrest, hnumeral]
  rfl

end Scanner

end GraphCodec.Json
