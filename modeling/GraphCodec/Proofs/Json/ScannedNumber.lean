import GraphCodec.Proofs.Lists
import GraphCodec.Proofs.Json.NumberScan
import GraphCodec.Proofs.Json.NumberRange

/-!
# The numeral that was scanned

A text that is read as a number is the text of a numeral with blanks around it, and the number is
the one that the numeral denotes (`Json.numeral?_of_parse`).  `Digits.Spelled` says which characters
a number that is being scanned stands for; a step keeps it (`Digits.Spelled.step`), and a complete
number reads back from its characters (`Digits.Spelled.read?`).  A state of the scanner that is not
inside the number of the text is `Scanner.Apart` from it and ends in another value.
-/

namespace GraphCodec

open Decimal

namespace Decimal

/-- A character with a value is a digit. -/
theorem isDigit_of_digitValue? {c : Char} {v : Nat} (h : digitValue? c = some v) :
    IsDigit c ∧ v = digitValue c := by
  have hc : IsDigit c := by
    unfold IsDigit digitValue
    unfold digitValue? at h ⊢
    split at h
    case isTrue hr => rw [if_pos hr]
    case isFalse => cases h
  refine ⟨hc, ?_⟩
  rw [IsDigit, h] at hc
  exact Option.some.inj hc

/-- A digit is none of the characters that are no digits. -/
theorem IsDigit.ne {c d : Char} (h : IsDigit c) (hd : ¬IsDigit d) : c ≠ d := by
  rintro rfl
  exact hd h

/-- Only digits have values. -/
theorem digitValues?_eq_some_iff {cs : List Char} {vs : List Nat} :
    digitValues? cs = some vs ↔ (∀ c ∈ cs, IsDigit c) ∧ vs = cs.map digitValue := by
  constructor
  · intro h
    induction cs generalizing vs with
    | nil =>
      cases h
      simp
    -- The first character has a value, and so have the others.
    | cons c cs ih =>
      rw [digitValues?, List.mapM_cons] at h
      simp only [Option.bind_eq_bind, Option.bind_eq_some_iff] at h
      obtain ⟨v, hv, rest, hrest, h⟩ := h
      cases h
      obtain ⟨hc, rfl⟩ := isDigit_of_digitValue? hv
      obtain ⟨hcs, rfl⟩ := ih hrest
      exact ⟨List.forall_mem_cons.2 ⟨hc, hcs⟩, rfl⟩
  · rintro ⟨hcs, rfl⟩
    exact digitValues?_of_isDigit hcs

/-- The values of digits are below ten. -/
private theorem digit_lt_of_digitValues? {cs : List Char} {vs : List Nat}
    (h : digitValues? cs = some vs) :
    ∀ v ∈ vs, v < 10 := by
  obtain ⟨hcs, rfl⟩ := digitValues?_eq_some_iff.1 h
  intro v hv
  obtain ⟨c, hc, rfl⟩ := List.mem_map.1 hv
  exact digitValue_lt (hcs c hc)

end Decimal

/-- The digits of a numeral that is read are below ten. -/
theorem digit_lt_of_read? {cs : List Char} {n : Numeral} (h : Numeral.read? cs = some n) :
    (∀ d ∈ n.whole, d < 10) ∧ ∀ d ∈ n.fraction, d < 10 := by
  -- The whole part and the fraction are read as digits.
  simp only [Numeral.read?, Option.bind_eq_bind, Option.bind_eq_some_iff] at h
  obtain ⟨whole, hw, fraction, hf, h⟩ := h
  split at h
  case isTrue => cases h
  case isFalse =>
    split at h
    all_goals
      obtain ⟨exponent, -, hn⟩ := Option.bind_eq_some_iff.1 h
      cases hn
      exact ⟨digit_lt_of_digitValues? hw, digit_lt_of_digitValues? hf⟩

namespace Json

namespace Digits

/-! ### The characters of a number -/

/-- Digits that have been scanned, last first, and their characters. -/
structure Written (vs : List Nat) (cs : List Char) : Prop where
  isDigit : ∀ c ∈ cs, IsDigit c
  reverse : vs.reverse = cs.map digitValue

private theorem written_nil : Written [] [] := ⟨by simp, rfl⟩

section Written

variable {vs : List Nat} {cs : List Char} {c : Char} {v : Nat}

/-- One more digit is written behind the others. -/
private theorem Written.snoc (h : Written vs cs) (hc : digitValue? c = some v) :
    Written (v :: vs) (cs ++ [c]) := by
  obtain ⟨hdigit, rfl⟩ := isDigit_of_digitValue? hc
  constructor
  · intro d hd
    rcases List.mem_append.1 hd with hd | hd
    · exact h.isDigit d hd
    · rwa [List.mem_singleton.1 hd]
  · rw [List.reverse_cons, h.reverse, List.map_append, List.map_singleton]

private theorem written_singleton (hc : digitValue? c = some v) :
    Written [v] [c] := written_nil.snoc hc

/-- Written digits are read back. -/
private theorem Written.digitValues? (h : Written vs cs) : digitValues? cs = some vs.reverse := by
  rw [h.reverse]
  exact digitValues?_of_isDigit h.isDigit

/-- Some digits are written with some characters. -/
private theorem Written.ne_nil (h : Written vs cs) (hne : vs ≠ []) : cs ≠ [] := by
  rintro rfl
  have := h.reverse
  simp at this
  exact hne this

/-- Digits are no sign. -/
theorem Written.splitSign (h : Written vs cs) (rest : List Char) (hne : vs ≠ []) :
    Numeral.splitSign (cs ++ rest) = (false, cs ++ rest) := by
  -- The first character is a digit, so it is neither of the two signs.
  cases cs with
  | nil => exact absurd rfl (h.ne_nil hne)
  | cons c cs =>
    have hc := h.isDigit c List.mem_cons_self
    have hplus : c ≠ '+' := hc.ne (by decide)
    have hminus : c ≠ '-' := hc.ne (by decide)
    unfold Numeral.splitSign
    split
    · rename_i heq
      exact absurd (List.cons.inj heq).1 hplus
    · rename_i heq
      exact absurd (List.cons.inj heq).1 hminus
    · rfl

end Written

/-- The characters of a number between its sign and its exponent. -/
inductive Front : List Nat → List Nat → List Char → Prop where
  | whole {vs : List Nat} {w : List Char} (hne : vs ≠ []) (hw : Written vs w) : Front vs [] w
  | point {vs fs : List Nat} {w f : List Char} (hne : vs ≠ []) (hw : Written vs w)
      (hf : Written fs f) : Front vs fs (w ++ '.' :: f)

/-- The sign of an exponent, which need not be written if it is positive. -/
inductive SignText : Bool → List Char → Prop where
  | none : SignText false []
  | plus : SignText false ['+']
  | minus : SignText true ['-']

/-- The sign of a number. -/
def minusText (negative : Bool) : List Char := if negative then ['-'] else []

/-- A number that is being scanned, and the characters of it so far. -/
inductive Spelled : Digits → List Char → Prop where
  | sign : Spelled minus ['-']
  | whole {phase : Phase} {negative : Bool} {vs : List Nat} {w : List Char}
      (hphase : phase = .zero ∨ phase = .whole) (hne : vs ≠ []) (hw : Written vs w) :
      Spelled ⟨phase, negative, vs, [], false, []⟩ (minusText negative ++ w)
  | fraction {phase : Phase} {negative : Bool} {vs fs : List Nat} {w f : List Char}
      (hphase : phase = .point ∧ fs = [] ∨ phase = .fraction) (hne : vs ≠ []) (hw : Written vs w)
      (hf : Written fs f) :
      Spelled ⟨phase, negative, vs, fs, false, []⟩ (minusText negative ++ (w ++ '.' :: f))
  | mark {negative : Bool} {vs fs : List Nat} {front : List Char} {e : Char}
      (hfront : Front vs fs front) (he : e = 'e' ∨ e = 'E') :
      Spelled ⟨.mark, negative, vs, fs, false, []⟩ (minusText negative ++ (front ++ [e]))
  | exponent {phase : Phase} {negative : Bool} {vs fs : List Nat} {front : List Char} {e : Char}
      {below : Bool} {sign : List Char} {es : List Nat} {x : List Char}
      (hphase : phase = .markSign ∧ es = [] ∨ phase = .exponent ∧ es ≠ [])
      (hfront : Front vs fs front) (he : e = 'e' ∨ e = 'E') (hsign : SignText below sign)
      (hx : Written es x) :
      Spelled ⟨phase, negative, vs, fs, below, es⟩
        (minusText negative ++ (front ++ e :: (sign ++ x)))

/-- The first digit of a number. -/
theorem spelled_first (negative : Bool) {c : Char} {v : Nat} (hc : digitValue? c = some v) :
    Spelled (first negative v) (minusText negative ++ [c]) := by
  refine .whole ?_ (List.cons_ne_nil v []) (written_singleton hc)
  by_cases hv : v = 0 <;> simp [hv]

/-- A character after the digits of the whole part or of the fraction. -/
private theorem continued_eq_more {d d' : Digits} {allowPoint : Bool} {c : Char}
    (h : d.continued allowPoint c = .more d') :
    allowPoint = true ∧ c = '.' ∧ d' = { d with phase := .point } ∨
      (c = 'e' ∨ c = 'E') ∧ d' = { d with phase := .mark } := by
  unfold continued at h
  -- A point where it is allowed, or an exponent mark.
  split at h
  case isTrue hpoint =>
    cases h
    exact Or.inl ⟨hpoint.1, hpoint.2, rfl⟩
  case isFalse =>
    split at h
    case isTrue hmark =>
      cases h
      exact Or.inr ⟨hmark, rfl⟩
    case isFalse => cases h

section Step

variable {d d' : Digits} {cs : List Char} {c : Char}

/-- A digit keeps what the number is spelled as. -/
private theorem Spelled.step_digit {v : Nat} (hc : digitValue? c = some v) (h : Spelled d cs)
    (hstep : d.step c = .more d') : Spelled d' (cs ++ [c]) := by
  cases h with
  -- A digit right behind the sign.
  | sign =>
    simp only [Digits.step, minus, hc, Step.more.injEq] at hstep
    subst hstep
    exact spelled_first true hc
  | whole hphase hne hw =>
    -- No digit is read behind a leading zero.
    obtain rfl | rfl := hphase
    · simp [Digits.step, hc] at hstep
    · simp only [Digits.step, hc, Step.more.injEq] at hstep
      subst hstep
      rw [List.append_assoc]
      exact .whole (Or.inr rfl) (List.cons_ne_nil _ _) (hw.snoc hc)
  -- The fraction begins with the digit, or goes on with it.
  | fraction hphase hne hw hf =>
    obtain ⟨rfl, rfl⟩ | rfl := hphase
    · simp only [Digits.step, hc, Step.more.injEq] at hstep
      subst hstep
      simpa only [List.append_assoc, List.cons_append] using
        Spelled.fraction (Or.inr rfl) hne hw (hf.snoc hc)
    · simp only [Digits.step, hc, Step.more.injEq] at hstep
      subst hstep
      simpa only [List.append_assoc, List.cons_append] using
        Spelled.fraction (Or.inr rfl) hne hw (hf.snoc hc)
  -- The exponent begins with the digit, or goes on with it.
  | mark hfront he =>
    simp only [Digits.step, hc, Step.more.injEq] at hstep
    subst hstep
    simpa only [List.append_assoc, List.cons_append, List.nil_append] using
      Spelled.exponent (Or.inr ⟨rfl, List.cons_ne_nil _ _⟩) hfront he .none
        (written_singleton hc)
  | exponent hphase hfront he hsign hx =>
    obtain ⟨rfl, rfl⟩ | ⟨rfl, -⟩ := hphase <;>
    · simp only [Digits.step, hc, Step.more.injEq] at hstep
      subst hstep
      simpa only [List.append_assoc, List.cons_append] using
        Spelled.exponent (Or.inr ⟨rfl, List.cons_ne_nil _ _⟩) hfront he hsign (hx.snoc hc)

/-- A point, a mark or a sign keeps what the number is spelled as. -/
private theorem Spelled.step_other (hc : digitValue? c = none) (h : Spelled d cs)
    (hstep : d.step c = .more d') : Spelled d' (cs ++ [c]) := by
  cases h with
  | sign => simp [Digits.step, minus, hc] at hstep
  | @whole phase negative vs w hphase hne hw =>
    have hcontinued : continued ⟨phase, negative, vs, [], false, []⟩ true c = .more d' := by
      obtain rfl | rfl := hphase <;> simpa only [Digits.step, hc] using hstep
    -- A point or an exponent mark may follow whole digits.
    obtain ⟨-, rfl, rfl⟩ | ⟨he, rfl⟩ := continued_eq_more hcontinued
    · rw [List.append_assoc]
      exact .fraction (Or.inl ⟨rfl, rfl⟩) hne hw written_nil
    · rw [List.append_assoc]
      exact .mark (.whole hne hw) he
  -- A fraction may be followed by an exponent mark only.
  | fraction hphase hne hw hf =>
    obtain ⟨rfl, -⟩ | rfl := hphase
    · simp [Digits.step, hc] at hstep
    · simp only [Digits.step, hc] at hstep
      obtain ⟨hfalse, -⟩ | ⟨he, rfl⟩ := continued_eq_more hstep
      · cases hfalse
      · rw [List.append_assoc]
        exact .mark (.point hne hw hf) he
  -- The mark may be followed by a sign only.
  | mark hfront he =>
    simp only [Digits.step, hc] at hstep
    split at hstep
    case isTrue hplus =>
      cases hstep
      subst hplus
      simpa only [List.append_assoc, List.cons_append, List.nil_append] using
        Spelled.exponent (Or.inl ⟨rfl, rfl⟩) hfront he .plus written_nil
    case isFalse =>
      split at hstep
      case isTrue hminus =>
        cases hstep
        subst hminus
        simpa only [List.append_assoc, List.cons_append, List.nil_append] using
          Spelled.exponent (Or.inl ⟨rfl, rfl⟩) hfront he .minus written_nil
      case isFalse => cases hstep
  | exponent hphase hfront he hsign hx =>
    obtain ⟨rfl, -⟩ | ⟨rfl, -⟩ := hphase <;> simp [Digits.step, hc] at hstep

/-- A step keeps what the number is spelled as. -/
theorem Spelled.step (h : Spelled d cs) (hstep : d.step c = .more d') : Spelled d' (cs ++ [c]) := by
  cases hc : digitValue? c with
  | some v => exact h.step_digit hc hstep
  | none => exact h.step_other hc hstep

end Step

/-- A number ends only where it is complete. -/
private theorem isComplete_of_ended {d : Digits} {c : Char} (h : d.step c = .ended) :
    d.isComplete = true := by
  obtain ⟨phase, _, _, _, _, _⟩ := d
  cases phase with
  -- Behind a sign, a point or a mark the number has to go on.
  | zero | whole | fraction | exponent => rfl
  | sign | point | markSign => cases hc : digitValue? c <;> simp [Digits.step, hc] at h
  | mark =>
    cases hc : digitValue? c with
    | some v => simp [Digits.step, hc] at h
    | none =>
      simp only [Digits.step, hc] at h
      split at h
      · cases h
      · split at h <;> cases h

/-! ### Reading the characters back -/

/-- Digits alone have no point in them. -/
private theorem splitPoint_of_isDigit {w : List Char} (hw : ∀ c ∈ w, IsDigit c) :
    Numeral.splitPoint w = (w, []) := by
  have hpoint : ∀ c ∈ w, decide (c ≠ '.') = true := fun c hc => by
    simpa using (hw c hc).ne (by decide)
  have hspan := List.span_append hpoint [] (by simp)
  rw [List.append_nil] at hspan
  simp only [Numeral.splitPoint, hspan, List.tail_nil]

/-- Digits are split at the point behind them. -/
theorem splitPoint_append {w : List Char} (hw : ∀ c ∈ w, IsDigit c) (f : List Char) :
    Numeral.splitPoint (w ++ '.' :: f) = (w, f) := by
  have hpoint : ∀ c ∈ w, decide (c ≠ '.') = true := fun c hc => by
    simpa using (hw c hc).ne (by decide)
  have hspan := List.span_append hpoint ('.' :: f) (by simp)
  simp only [Numeral.splitPoint, hspan, List.tail_cons]

/-- The digits before the exponent are found at their places. -/
theorem Front.exists_splitPoint {vs fs : List Nat} {front : List Char} (h : Front vs fs front) :
    vs ≠ [] ∧ ∃ w f, Numeral.splitPoint front = (w, f) ∧ digitValues? w = some vs.reverse ∧
      digitValues? f = some fs.reverse := by
  cases h with
  | whole hne hw =>
    exact ⟨hne, _, _, splitPoint_of_isDigit hw.isDigit, hw.digitValues?, rfl⟩
  | point hne hw hf =>
    exact ⟨hne, _, _, splitPoint_append hw.isDigit _, hw.digitValues?, hf.digitValues?⟩

/-- Digits and a point are no exponent mark. -/
theorem Front.no_mark {vs fs : List Nat} {front : List Char} (h : Front vs fs front) :
    ∀ c ∈ front, decide (c ≠ 'e' ∧ c ≠ 'E') = true := by
  have hdigit : ∀ c, IsDigit c → decide (c ≠ 'e' ∧ c ≠ 'E') = true := fun c hc => by
    simpa using ⟨hc.ne (by decide), hc.ne (by decide)⟩
  intro c hc
  -- The characters are digits, but for the point.
  cases h with
  | whole hne hw => exact hdigit c (hw.isDigit c hc)
  | point hne hw hf =>
    rcases List.mem_append.1 hc with hc | hc
    · exact hdigit c (hw.isDigit c hc)
    · rcases List.mem_cons.1 hc with rfl | hc
      · decide
      · exact hdigit c (hf.isDigit c hc)

/-- The sign in front of a number is split off. -/
theorem Front.splitSign {vs fs : List Nat} {front : List Char} (h : Front vs fs front)
    (negative : Bool) (rest : List Char) :
    Numeral.splitSign (minusText negative ++ (front ++ rest)) = (negative, front ++ rest) := by
  cases negative with
  | true => rfl
  | false =>
    rw [minusText, if_neg Bool.false_ne_true, List.nil_append]
    -- Without a minus sign the number begins with a digit.
    cases h with
    | whole hne hw => exact hw.splitSign rest hne
    | point hne hw hf =>
      rw [List.append_assoc]
      exact hw.splitSign _ hne

/-- The exponent is read with its sign. -/
theorem readInt?_exponent {below : Bool} {sign : List Char} (hsign : SignText below sign)
    {es : List Nat} {x : List Char} (hx : Written es x) (hne : es ≠ []) :
    Numeral.readInt? (String.ofList (sign ++ x)) =
      some (if below then -(ofDigits es.reverse : Int) else ofDigits es.reverse) := by
  -- The sign of the exponent is split off.
  have hsplit : Numeral.splitSign (sign ++ x) = (below, x) := by
    cases hsign with
    | none => simpa using hx.splitSign [] hne
    | plus => rfl
    | minus => rfl
  have hxne : x.isEmpty = false := List.isEmpty_eq_false_iff.2 (hx.ne_nil hne)
  simp only [Numeral.readInt?, String.toList_ofList, hsplit, hxne, Bool.false_eq_true, if_false,
    hx.digitValues?, Option.bind_eq_bind, Option.bind_some]

/-- A numeral without an exponent is read. -/
theorem Front.read? {vs fs : List Nat} {front : List Char} (h : Front vs fs front)
    (negative : Bool) :
    Numeral.read? (minusText negative ++ front) =
      some ⟨negative, vs.reverse, fs.reverse, none⟩ := by
  have hsign := h.splitSign negative []
  rw [List.append_nil] at hsign
  obtain ⟨hne, w, f, hpoint, hw, hf⟩ := h.exists_splitPoint
  have hspan := List.span_append h.no_mark [] (by simp)
  rw [List.append_nil] at hspan
  -- There is no exponent to split off.
  have hexponent : Numeral.splitExponent front = (front, none) := by
    simp only [Numeral.splitExponent, hspan, List.tail?_nil]
  simp only [Numeral.read?, hsign, hexponent, hpoint, hw, hf, Option.bind_eq_bind,
    Option.bind_some, List.isEmpty_iff, List.reverse_eq_nil_iff, hne, false_and, if_false]

/-- A numeral with an exponent is read. -/
private theorem Front.read?_exponent {vs fs : List Nat} {front : List Char} (h : Front vs fs front)
    (negative : Bool) {e : Char} (he : e = 'e' ∨ e = 'E') {below : Bool} {sign : List Char}
    (hsign : SignText below sign) {es : List Nat} {x : List Char} (hx : Written es x)
    (hxne : es ≠ []) :
    Numeral.read? (minusText negative ++ (front ++ e :: (sign ++ x))) =
      some ⟨negative, vs.reverse, fs.reverse,
        some (if below then -(ofDigits es.reverse : Int) else ofDigits es.reverse)⟩ := by
  obtain ⟨hne, w, f, hpoint, hw, hf⟩ := h.exists_splitPoint
  -- The exponent stands behind the first mark.
  have hexponent : Numeral.splitExponent (front ++ e :: (sign ++ x)) =
      (front, some (sign ++ x)) := by
    have hspan := List.span_append h.no_mark (e :: (sign ++ x))
      (by rcases he with rfl | rfl <;> simp)
    simp only [Numeral.splitExponent, hspan, List.tail?_cons]
  simp only [Numeral.read?, h.splitSign, hexponent, hpoint, hw, hf, Option.bind_eq_bind,
    Option.bind_some, List.isEmpty_iff, List.reverse_eq_nil_iff, hne, false_and, if_false,
    readInt?_exponent hsign hx hxne, Option.map_some]

/-- No digit is blank. -/
private theorem Written.not_blank {vs : List Nat} {cs : List Char} (h : Written vs cs) :
    ∀ c ∈ cs, Text.isBlank c = false :=
  fun c hc => isBlank_of_isDigit (h.isDigit c hc)

/-- No character in front of an exponent is blank. -/
private theorem Front.not_blank {vs fs : List Nat} {front : List Char} (h : Front vs fs front) :
    ∀ c ∈ front, Text.isBlank c = false := by
  cases h with
  | whole _ hw => exact hw.not_blank
  | point _ hw hf =>
    simp only [List.forall_mem_append, List.forall_mem_cons]
    exact ⟨hw.not_blank, rfl, hf.not_blank⟩

/-- No character of a number is blank. -/
private theorem Spelled.not_blank {d : Digits} {cs : List Char} (h : Spelled d cs) :
    ∀ c ∈ cs, Text.isBlank c = false := by
  -- The signs and marks are not blank either.
  have hminus : ∀ negative, ∀ c ∈ minusText negative, Text.isBlank c = false := by
    rintro (_ | _)
    · exact List.forall_mem_nil _
    · exact List.forall_mem_singleton.2 rfl
  have hmark : ∀ e, e = 'e' ∨ e = 'E' → Text.isBlank e = false := by rintro e (rfl | rfl) <;> rfl
  cases h with
  | sign => exact hminus true
  | whole _ _ hw => exact List.forall_mem_append.2 ⟨hminus _, hw.not_blank⟩
  | fraction _ hne hw hf =>
    exact List.forall_mem_append.2 ⟨hminus _, (Front.point hne hw hf).not_blank⟩
  | mark hfront he =>
    simp only [List.forall_mem_append, List.forall_mem_singleton]
    exact ⟨hminus _, hfront.not_blank, hmark _ he⟩
  | exponent _ hfront he hsign hx =>
    have hsignText : ∀ {below sign}, SignText below sign → ∀ c ∈ sign, Text.isBlank c = false := by
      rintro below sign (_ | _ | _)
      · exact List.forall_mem_nil _
      · exact List.forall_mem_singleton.2 rfl
      · exact List.forall_mem_singleton.2 rfl
    simp only [List.forall_mem_append, List.forall_mem_cons]
    exact ⟨hminus _, hfront.not_blank, hmark _ he, hsignText hsign, hx.not_blank⟩

/-- A complete number reads back from its characters. -/
theorem Spelled.read? {d : Digits} {cs : List Char} (h : Spelled d cs)
    (hd : d.isComplete = true) : Numeral.read? cs = some d.numeral := by
  cases h with
  -- A number that is complete has a digit last.
  | sign => cases hd
  | whole hphase hne hw => exact (Front.whole hne hw).read? _
  | fraction hphase hne hw hf => exact (Front.point hne hw hf).read? _
  | mark hfront he => cases hd
  | exponent hphase hfront he hsign hx =>
    obtain ⟨rfl, -⟩ | ⟨rfl, hne⟩ := hphase
    · cases hd
    · rw [hfront.read?_exponent _ he hsign hx hne]
      simp only [numeral, List.isEmpty_iff, hne, if_false]

end Digits

/-! ### The value of a text -/

namespace Scanner

/-- A draft that is no number. -/
def NoNumber (v : Draft) : Prop := ∀ x, v ≠ .number x

/-- A state in which the value of the text will not be a number. -/
def Apart (s : Scanner) : Prop :=
  match s.phase with
  | .value | .number _ => s.frames ≠ []
  | .literal _ v | .ended (.document v) => NoNumber v
  | _ => True

/-- A step after which the value of the text will not be a number. -/
def StaysApart : Except Document Scanner → Prop
  | .ok s => s.Apart
  | .error d => NoNumber d.value

variable {frames : List Frame}

theorem noNumber_fault (f : Fault) : NoNumber (.fault f) := fun _ h => by cases h

theorem noNumber_array (items : List Draft) (stop : Option Fault) :
    NoNumber (.array items stop) := fun _ h => by cases h

theorem noNumber_object (members : List Draft.Member) (stop : Option Fault) :
    NoNumber (.object members stop) := fun _ h => by cases h

/-- A text is no number. -/
private theorem noNumber_stringDraft (content : Except SyntaxError String) :
    NoNumber (stringDraft content) := by
  intro x h
  cases content <;> cases h

/-- A value that is closed is in an array or object, or stands alone. -/
theorem noNumber_close {v : Draft} (h : frames ≠ [] ∨ NoNumber v) :
    NoNumber (close frames v).value := by
  induction frames generalizing v with
  | nil => exact h.resolve_left (absurd rfl)
  | cons f rest ih =>
    cases f with
    | array items => exact ih (Or.inr (noNumber_array _ _))
    | object members key => exact ih (Or.inr (noNumber_object _ _))

/-- An array in which reading stops is no number. -/
theorem noNumber_stopArray (items : List Draft) (f : Fault) :
    NoNumber (stopArray frames items f).value :=
  noNumber_close (Or.inr (noNumber_array _ _))

/-- An object in which reading stops is no number. -/
theorem noNumber_stopObject (members : List Draft.Member) (f : Fault) :
    NoNumber (stopObject frames members f).value :=
  noNumber_close (Or.inr (noNumber_object _ _))

/-- What is complete inside something, or is no number, is apart from a number. -/
theorem apart_complete {v : Draft} (h : frames ≠ [] ∨ NoNumber v) : (complete frames v).Apart := by
  cases frames with
  | nil => exact h.resolve_left (absurd rfl)
  | cons f rest => cases f <;> trivial

/-- A character behind a value keeps a state apart from a number. -/
private theorem staysApart_endedStep {e : Ended} (h : Apart ⟨frames, .ended e⟩) (c : Char) :
    StaysApart (endedStep frames e c) := by
  unfold endedStep
  split
  -- Blanks change nothing.
  case isTrue => exact h
  case isFalse =>
    cases e with
    -- Behind an element a comma or the end of the array may follow.
    | element items =>
      dsimp only
      split_ifs
      · exact List.cons_ne_nil _ _
      · exact apart_complete (Or.inr (noNumber_array _ _))
      · exact noNumber_stopArray _ _
    -- Behind a member a comma or the end of the object may follow.
    | member members =>
      dsimp only
      split_ifs
      · trivial
      · exact apart_complete (Or.inr (noNumber_object _ _))
      · exact noNumber_stopObject _ _
    | document v => exact h

/-- A character where a name is due keeps a state apart from a number. -/
private theorem staysApart_nameStep (members : List Draft.Member) (c : Char) :
    StaysApart (nameStep frames members c) := by
  unfold nameStep
  split_ifs
  · trivial
  · exact apart_complete (Or.inr (noNumber_object _ _))
  · exact noNumber_stopObject _ _
  · exact noNumber_stopObject _ _

/-- The first character of a value that is not a number, or not the whole text. -/
theorem staysApart_valueStep {c : Char} (h : frames ≠ [] ∨ c ≠ '-' ∧ digitValue? c = none) :
    StaysApart (valueStep frames c) := by
  unfold valueStep
  -- Each character begins another sort of value, or none.
  split
  all_goals try trivial
  case h_2 => exact List.cons_ne_nil _ _
  case h_4 | h_5 | h_6 => exact fun x hx => by cases hx
  case h_7 => exact h.resolve_right fun hc => hc.1 rfl
  case h_8 => exact apart_complete (Or.inr (noNumber_array _ _))
  case h_9 => exact noNumber_stopArray _ _
  case h_10 =>
    split
    case h_1 v hv =>
      exact h.resolve_right fun hc => by
        rw [hv] at hc
        cases hc.2
    case h_2 => exact noNumber_close (Or.inr (noNumber_fault _))

/-- A step keeps a state apart from a number. -/
private theorem staysApart_step {s : Scanner} (h : s.Apart) (c : Char) : StaysApart (s.step c) := by
  obtain ⟨frames, phase⟩ := s
  unfold step
  cases phase with
  | value =>
    dsimp only
    split
    · exact h
    · exact staysApart_valueStep (Or.inl h)
  -- A word is complete, goes on, or is broken off.
  | literal letters v =>
    cases letters with
    | nil => exact apart_complete (Or.inr h)
    | cons l rest =>
      dsimp only
      split_ifs
      · exact apart_complete (Or.inr h)
      · exact h
      · exact noNumber_close (Or.inr (noNumber_fault _))
  -- A number goes on, is no value, or ends in front of a character behind it.
  | number d =>
    dsimp only
    split
    · exact h
    · exact noNumber_close (Or.inl h)
    · exact staysApart_endedStep (apart_complete (Or.inl h)) c
  -- A string goes on, is closed, or is faulty.
  | string q =>
    dsimp only
    split
    · trivial
    · exact apart_complete (Or.inr (noNumber_stringDraft _))
    · exact noNumber_close (Or.inr (noNumber_fault _))
  | name members =>
    dsimp only
    split
    · trivial
    · exact staysApart_nameStep members c
  | key members q =>
    dsimp only
    split
    · trivial
    · trivial
    · exact noNumber_stopObject _ _
  | colon members key =>
    dsimp only
    split_ifs
    · trivial
    · exact List.cons_ne_nil _ _
    · exact noNumber_close (Or.inr (noNumber_fault _))
  | ended e => exact staysApart_endedStep h c

/-- A text that ends behind a value apart from a number is no number. -/
private theorem noNumber_endedFinish {e : Ended} (h : Apart ⟨frames, .ended e⟩) :
    NoNumber (endedFinish frames e).value := by
  cases e with
  | element items => exact noNumber_stopArray _ _
  | member members => exact noNumber_stopObject _ _
  | document v => exact h

/-- A text that ends in a state apart from a number is no number. -/
private theorem noNumber_finish {s : Scanner} (h : s.Apart) : NoNumber s.finish.value := by
  obtain ⟨frames, phase⟩ := s
  unfold finish
  cases phase with
  | value =>
    dsimp only
    split
    · exact noNumber_stopArray _ _
    · exact noNumber_close (Or.inl h)
  | literal letters v => exact noNumber_close (Or.inr (noNumber_fault _))
  | number d =>
    dsimp only
    split
    · exact noNumber_endedFinish (apart_complete (Or.inl h))
    · exact noNumber_close (Or.inl h)
  | string q => exact noNumber_close (Or.inr (noNumber_fault _))
  | name members => cases members <;> exact noNumber_stopObject _ _
  | key members q => exact noNumber_stopObject _ _
  | colon members key => exact noNumber_close (Or.inr (noNumber_fault _))
  | ended e => exact noNumber_endedFinish h

/-- From a state apart from a number, the value of the text is no number. -/
private theorem noNumber_run {s : Scanner} (h : s.Apart) (cs : List Char) :
    NoNumber (s.run cs).value := by
  induction cs generalizing s with
  | nil => exact noNumber_finish h
  | cons c cs ih =>
    have hstep := staysApart_step h c
    rw [run]
    -- The scan goes on, or it stops with what there is.
    split
    case h_1 s' hs' =>
      rw [hs'] at hstep
      exact ih hstep
    case h_2 d hd =>
      rw [hd] at hstep
      exact hstep

/-! ### A number and the blanks around it -/

/-- Characters that are the text of a numeral, and the number that the numeral denotes. -/
def IsNumber (cs : List Char) (x : Number) : Prop :=
  (∀ c ∈ cs, Text.isBlank c = false) ∧
    ∃ n, Numeral.read? cs = some n ∧ Number.ofNumeral? n = some x

/-- A numeral makes a number only if it can be read as one. -/
private theorem numberDraft_eq {d : Digits} {x : Number} (h : numberDraft d = .number x) :
    Number.ofNumeral? d.numeral = some x := by
  unfold numberDraft at h
  split at h
  case h_1 n hn =>
    cases h
    exact hn
  case h_2 => cases h

/-- A complete number is the one that its numeral denotes. -/
private theorem isNumber_of_spelled {d : Digits} {cs : List Char} {x : Number} (h : d.Spelled cs)
    (hd : d.isComplete = true) (hx : numberDraft d = .number x) : IsNumber cs x :=
  ⟨h.not_blank, d.numeral, h.read? hd, numberDraft_eq hx⟩

/-- After the value of the text there are only blanks. -/
private theorem blank_of_run_ended {v w : Draft} {cs : List Char}
    (h : run ⟨[], .ended (.document v)⟩ cs = ⟨w, false⟩) :
    w = v ∧ ∀ c ∈ cs, isBlank c = true := by
  induction cs with
  | nil =>
    cases h
    exact ⟨rfl, by simp⟩
  | cons c cs ih =>
    -- A blank is skipped, and anything else would be left behind the value.
    by_cases hc : isBlank c = true
    · simp only [run, step, endedStep, if_pos hc] at h
      obtain ⟨hv, hcs⟩ := ih h
      exact ⟨hv, List.forall_mem_cons.2 ⟨hc, hcs⟩⟩
    · simp only [run, step, endedStep, if_neg hc] at h
      cases h

/-- A text that ends as a number goes on with the rest of the number and then with blanks. -/
private theorem exists_of_run_number {d : Digits} {cs rest : List Char} {x : Number}
    (hd : d.Spelled cs) (h : run ⟨[], .number d⟩ rest = ⟨.number x, false⟩) :
    ∃ middle behind, rest = middle ++ behind ∧ IsNumber (cs ++ middle) x ∧
      ∀ c ∈ behind, isBlank c = true := by
  -- What has been read of the number grows along the text.
  induction rest generalizing d cs with
  | nil =>
    rw [run, finish] at h
    dsimp only at h
    -- The text may end only where the number is complete.
    split at h
    case isTrue hcomplete =>
      simp only [place, endedFinish, Document.mk.injEq] at h
      refine ⟨[], [], rfl, ?_, by simp⟩
      rw [List.append_nil]
      exact isNumber_of_spelled hd hcomplete h.1
    case isFalse => cases h
  | cons c rest ih =>
    rw [run, step] at h
    dsimp only at h
    -- The character belongs to the number, breaks it off, or ends it.
    cases hstep : d.step c with
    | more d' =>
      rw [hstep] at h
      obtain ⟨middle, behind, rfl, hnumber, hbehind⟩ := ih (hd.step hstep) h
      rw [List.append_assoc] at hnumber
      exact ⟨c :: middle, behind, rfl, hnumber, hbehind⟩
    | fault =>
      rw [hstep] at h
      cases h
    -- This character is behind the number, and only blanks can follow.
    | ended =>
      rw [hstep] at h
      obtain ⟨hv, hrest⟩ : Draft.number x = numberDraft d ∧ ∀ b ∈ c :: rest, isBlank b = true :=
        blank_of_run_ended (by rw [run, step]; exact h)
      refine ⟨[], c :: rest, rfl, ?_, hrest⟩
      rw [List.append_nil]
      exact isNumber_of_spelled hd (Digits.isComplete_of_ended hstep) hv.symm

/-- A text that is read as a number is the text of a numeral with blanks around it. -/
private theorem exists_of_run_start {cs : List Char} {x : Number}
    (h : start.run cs = ⟨.number x, false⟩) :
    ∃ front middle behind, cs = front ++ (middle ++ behind) ∧ IsNumber middle x ∧
      (∀ c ∈ front, isBlank c = true) ∧ ∀ c ∈ behind, isBlank c = true := by
  induction cs with
  | nil => cases h
  | cons c cs ih =>
    -- A blank in front is skipped.
    by_cases hblank : isBlank c = true
    · have hstep : start.step c = .ok start := by
        simp only [start, step, if_pos hblank]
      rw [run_cons hstep] at h
      obtain ⟨front, middle, behind, rfl, hnumber, hfront, hbehind⟩ := ih h
      exact ⟨c :: front, middle, behind, rfl, hnumber,
        List.forall_mem_cons.2 ⟨hblank, hfront⟩, hbehind⟩
    · have hstep : start.step c = valueStep [] c := by
        simp only [start, step, if_neg hblank]
      -- A number begins here, or the value is none.
      have hfirst : ∃ d : Digits, d.Spelled [c] ∧ valueStep [] c = .ok ⟨[], .number d⟩ := by
        by_cases hminus : c = '-'
        · subst hminus
          exact ⟨.minus, .sign, rfl⟩
        · cases hv : digitValue? c with
          | some v =>
            have hdigit := (isDigit_of_digitValue? hv).1
            refine ⟨.first false v, Digits.spelled_first false hv, ?_⟩
            rcases hdigit.eq_or with h | h | h | h | h | h | h | h | h | h <;> subst h <;>
              cases hv <;> rfl
          -- Otherwise another value begins here, or none at all.
          | none =>
            have hapart : StaysApart (valueStep [] c) :=
              staysApart_valueStep (Or.inr ⟨hminus, hv⟩)
            rw [run, hstep] at h
            cases hs : valueStep [] c with
            | ok s =>
              rw [hs] at h hapart
              have hvalue := congrArg Document.value h
              exact absurd hvalue (noNumber_run hapart cs x)
            | error d =>
              rw [hs] at h hapart
              exact absurd (congrArg Document.value h) (hapart x)
      obtain ⟨d, hd, hvalue⟩ := hfirst
      rw [run_cons (hstep.trans hvalue)] at h
      obtain ⟨middle, behind, rfl, hnumber, hbehind⟩ := exists_of_run_number hd h
      exact ⟨[], c :: middle, behind, rfl, hnumber, by simp, hbehind⟩

end Scanner

/-- The numeral in a text. -/
def numeral? (text : String) : Option Numeral := Numeral.read? (Text.trim text).toList

/-- What settles to a number is one. -/
private theorem Draft.eq_number_of_settle {v : Draft} {x : Number}
    (h : v.settle none = .ok (.number x)) :
    v = .number x := by
  cases v with
  | number y =>
    cases h
    rfl
  -- Nothing else settles to a number.
  | null | bool | string | unreadable | fault => cases h
  | array items stop =>
    simp only [settle, bind, Except.bind, pure, Except.pure] at h
    split at h <;> try contradiction
    split at h <;> try contradiction
    split at h <;> cases h
  | object members stop =>
    simp only [settle, bind, Except.bind, pure, Except.pure] at h
    split at h <;> try contradiction
    split at h <;> try contradiction
    split at h <;> cases h

/-- Blanks before other characters are dropped. -/
private theorem trimStart_append {front rest : List Char}
    (hfront : ∀ c ∈ front, Text.isBlank c = true)
    (hrest : ∀ c ∈ rest.head?, Text.isBlank c = false) : Text.trimStart (front ++ rest) = rest := by
  rw [Text.trimStart, List.dropWhile_append_of_pos hfront]
  cases rest with
  | nil => rfl
  | cons c rest => simp [hrest c rfl]

/-- The blanks around other characters are trimmed. -/
private theorem trim_append {front middle behind : List Char}
    (hfront : ∀ c ∈ front, Text.isBlank c = true) (hmiddle : ∀ c ∈ middle, Text.isBlank c = false)
    (hbehind : ∀ c ∈ behind, Text.isBlank c = true) (hne : middle ≠ []) :
    Text.trim (String.ofList (front ++ (middle ++ behind))) = String.ofList middle := by
  -- The other characters stop the trimming on both sides.
  have hhead : ∀ c ∈ (middle ++ behind).head?, Text.isBlank c = false := by
    intro c hc
    cases middle with
    | nil => exact absurd rfl hne
    | cons d middle =>
      obtain rfl : d = c := Option.some.inj hc
      exact hmiddle d List.mem_cons_self
  have hlast : ∀ c ∈ middle.reverse.head?, Text.isBlank c = false := fun c hc =>
    hmiddle c (List.mem_reverse.1 (List.mem_of_mem_head? hc))
  rw [Text.trim, String.toList_ofList, trimStart_append hfront hhead, List.reverse_append,
    trimStart_append (fun c hc => hbehind c (List.mem_reverse.1 hc)) hlast, List.reverse_reverse]

/-- The blanks between tokens are blank. -/
private theorem isBlank_of_isBlank {c : Char} (h : Scanner.isBlank c = true) :
    Text.isBlank c = true := by
  simp only [Scanner.isBlank, Bool.or_eq_true, decide_eq_true_eq] at h
  rcases h with ((rfl | rfl) | rfl) | rfl <;> rfl

/-- A text that is read as a number holds a numeral that denotes the number. -/
theorem numeral?_of_parse {text : String} {x : Number} (h : Json.parse text = .ok (.number x)) :
    ∃ n, numeral? text = some n ∧ Number.ofNumeral? n = some x := by
  -- Nothing is left to report, so the scan itself ended with this number.
  have hscan : Document.scan text = ⟨.number x, false⟩ := by
    unfold Json.parse Document.read at h
    cases hv : (Document.scan text).value.settle none with
    | error e =>
      rw [hv] at h
      cases h
    | ok v =>
      simp only [hv, bind, Except.bind, pure, Except.pure] at h
      split at h
      case isTrue => cases h
      case isFalse htrailing =>
        cases h
        have hvalue := Draft.eq_number_of_settle hv
        rw [Bool.not_eq_true] at htrailing
        rw [← hvalue, ← htrailing]
  -- Blanks, the numeral, and blanks make up the text.
  obtain ⟨front, middle, behind, htext, ⟨hmiddle, n, hread, hn⟩, hfront, hbehind⟩ :=
    Scanner.exists_of_run_start hscan
  -- Without characters there would be no numeral.
  have hne : middle ≠ [] := by
    rintro rfl
    cases hread
  refine ⟨n, ?_, hn⟩
  rw [numeral?, ← String.ofList_toList (s := text), htext,
    trim_append (fun c hc => isBlank_of_isBlank (hfront c hc)) hmiddle
      (fun c hc => isBlank_of_isBlank (hbehind c hc)) hne, String.toList_ofList, hread]

/-- A text that is read as a number with a property that can be tested. -/
theorem exists_number_of_parse {text : String} {p : Number → Bool}
    (h : (match Json.parse text with | .ok (.number x) => p x | _ => false) = true) :
    ∃ x, Json.parse text = .ok (.number x) ∧ p x = true := by
  split at h
  case h_1 x hx => exact ⟨x, hx, h⟩
  case h_2 => cases h

end Json

end GraphCodec
