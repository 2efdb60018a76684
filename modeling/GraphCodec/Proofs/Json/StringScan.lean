import GraphCodec.Json.Scanner
import GraphCodec.Json.Printer

/-!
# Scanning a string that was written

What `Json.writeString` writes the scanner reads back: `Quote.feed_escape` for one character,
whether it is written as it is or as an escape, and `Scanner.run_string`, `Scanner.run_name` for a
whole string in the place of a value or of a member's name.
-/

namespace GraphCodec.Json

namespace Quote

/-- Scans characters that do not end the string. -/
def feed (q : Quote) : List Char → Option Quote
  | [] => some q
  | c :: cs =>
    match q.step c with
    | .more q => feed q cs
    | _ => none

/-- Characters behind each other are read one after the other. -/
private theorem feed_append {q r : Quote} {as bs : List Char} (h : q.feed as = some r) :
    q.feed (as ++ bs) = r.feed bs := by
  induction as generalizing q with
  | nil =>
    rw [feed, Option.some.injEq] at h
    rw [List.nil_append, h]
  | cons a as ih =>
    rw [List.cons_append, feed]
    rw [feed] at h
    cases hs : q.step a with
    | more q' =>
      rw [hs] at h
      exact ih h
    | closed content => rw [hs] at h; cases h
    | fault f => rw [hs] at h; cases h

/-- A string between characters, in which no problem was found. -/
def plain (reversed : List Char) : Quote := ⟨reversed, none, .plain⟩

/-- A digit that is written in an escape reads back. -/
theorem hexValue?_hexDigit : ∀ n < 16, hexValue? (hexDigit n) = some n := by decide

private theorem utf8Size_hexDigit : ∀ n < 16, (hexDigit n).utf8Size = 1 := by decide

private theorem hexDigit_mod (n : Nat) : hexDigit (n % 16) = hexDigit n := by
  rw [hexDigit, hexDigit, Nat.mod_mod]

/-- One of the first three digits of a `\u` escape. -/
private theorem step_hex {bytes n : Nat} (hb : bytes < 3) (hn : n < 16) (reversed : List Char)
    (v : Nat) :
    (⟨reversed, none, .hex bytes (some v) none⟩ : Quote).step (hexDigit n) =
      .more ⟨reversed, none, .hex (bytes + 1) (some (16 * v + n)) none⟩ := by
  have hlt : bytes + 1 < 4 := by omega
  simp only [step, hexStep, hexValue?_hexDigit n hn, utf8Size_hexDigit n hn, if_pos hlt]
  rfl

/-- The last digit of a `\u` escape. -/
private theorem step_hex_last {n : Nat} (hn : n < 16) (reversed : List Char) (v : Nat) :
    (⟨reversed, none, .hex 3 (some v) none⟩ : Quote).step (hexDigit n) =
      .more ((⟨reversed, none, .hex 3 (some v) none⟩ : Quote).unit (16 * v + n) none) := by
  simp only [step, hexStep, hexValue?_hexDigit n hn, utf8Size_hexDigit n hn]
  rfl

/-- Below the surrogates, a code unit is a character. -/
private theorem unit_of_lt {v : Nat} (hv : v < 256) (reversed : List Char) (phase : Phase) :
    (⟨reversed, none, phase⟩ : Quote).unit v none = plain (Char.ofNat v :: reversed) := by
  -- The code is that of neither half of a pair.
  have hhigh : isHighSurrogate v = false := by
    simp only [isHighSurrogate, Bool.and_eq_false_iff, decide_eq_false_iff_not]
    omega
  have hlow : isLowSurrogate v = false := by
    simp only [isLowSurrogate, Bool.and_eq_false_iff, decide_eq_false_iff_not]
    omega
  simp only [unit, hhigh, hlow, push, Bool.false_eq_true, if_false, plain]

/-- A character that is taken is followed by the rest. -/
private theorem feed_cons {q r : Quote} {c : Char} {cs : List Char} (h : q.step c = .more r) :
    q.feed (c :: cs) = r.feed cs := by
  rw [feed, h]

/-- A `\u` escape of a character below U+0100 reads back as the character. -/
private theorem feed_hex {c : Char} (h : c.toNat < 256) (reversed : List Char) :
    (plain reversed).feed
        ['\\', 'u', '0', '0', hexDigit (c.toNat / 16), hexDigit c.toNat] =
      some (plain (c :: reversed)) := by
  have hback : (plain reversed).step '\\' = .more ⟨reversed, none, .escape⟩ := rfl
  have hu : (⟨reversed, none, .escape⟩ : Quote).step 'u' =
      .more ⟨reversed, none, .hex 0 (some 0) none⟩ := rfl
  have hzero : '0' = hexDigit 0 := rfl
  -- The four digits make up the code of the character.
  have hv : 16 * (16 * (16 * (16 * 0 + 0) + 0) + c.toNat / 16) + c.toNat % 16 = c.toNat := by omega
  rw [feed_cons hback, feed_cons hu, hzero, feed_cons (step_hex (by omega) (by omega) _ _),
    feed_cons (step_hex (by omega) (by omega) _ _), feed_cons (step_hex (by omega) (by omega) _ _),
    ← hexDigit_mod c.toNat, feed_cons (step_hex_last (by omega) _ _), hv, unit_of_lt h,
    Char.ofNat_toNat]
  rfl

/-- What is written for a character reads back as the character. -/
theorem feed_escape (c : Char) (reversed : List Char) :
    (plain reversed).feed (escape c) = some (plain (c :: reversed)) := by
  unfold escape
  split
  -- A control character is written in hexadecimal, and any other one as it is.
  case h_8 h1 h2 h3 h4 h5 h6 h7 =>
    split
    case isTrue hc => exact feed_hex (by omega) reversed
    case isFalse hc =>
      have hq : c ≠ '"' := h1
      have hb : c ≠ '\\' := h2
      simp only [feed, step, plain, plainStep, if_neg hq, if_neg hb, if_neg hc, push]
  -- The short escapes are computed.
  all_goals rfl

/-- What is written for the characters of a string reads back as the characters. -/
theorem feed_flatMap_escape (cs reversed : List Char) :
    (plain reversed).feed (cs.flatMap escape) = some (plain (cs.reverse ++ reversed)) := by
  induction cs generalizing reversed with
  | nil => rfl
  | cons c cs ih =>
    rw [List.flatMap_cons, feed_append (feed_escape c reversed), ih, List.reverse_cons,
      List.append_assoc, List.singleton_append]

end Quote

namespace Scanner

variable {frames : List Frame} {members : List Draft.Member} {rest : List Char}

/-- Inside a string the scanner does what the string does; `phase` tells whether the string is a
value or a member's name. -/
theorem run_feed {phase : Quote → Phase}
    (hphase : ∀ q r c, q.step c = .more r → step ⟨frames, phase q⟩ c = .ok ⟨frames, phase r⟩)
    {q r : Quote} {cs : List Char} (h : q.feed cs = some r) :
    run ⟨frames, phase q⟩ (cs ++ rest) = run ⟨frames, phase r⟩ rest := by
  induction cs generalizing q with
  | nil =>
    rw [Quote.feed, Option.some.injEq] at h
    rw [List.nil_append, h]
  | cons c cs ih =>
    -- Every character is taken, so the string goes on.
    rw [Quote.feed] at h
    cases hs : q.step c with
    | more q' =>
      rw [hs] at h
      rw [List.cons_append, run, hphase q q' c hs]
      exact ih h
    | closed content => rw [hs] at h; cases h
    | fault f => rw [hs] at h; cases h

/-- The quote that closes a string. -/
theorem closing (s : String) :
    (Quote.plain (s.toList.reverse ++ [])).step '"' = .closed (.ok s) := by
  simp [Quote.step, Quote.plain, Quote.plainStep, Quote.content]

/-- A string in the place of a value. -/
theorem run_string (s : String) :
    run ⟨frames, .value⟩ (writeString s rest) = run (complete frames (.string s)) rest := by
  -- The string begins at the first quotation mark and is complete at the second one.
  have hopen : step ⟨frames, .value⟩ '"' = .ok ⟨frames, .string (.plain [])⟩ := rfl
  have hclose : step ⟨frames, .string (.plain (s.toList.reverse ++ []))⟩ '"' =
      .ok (complete frames (.string s)) := by
    simp only [step, closing, stringDraft]
  rw [writeString, run, hopen]
  show run ⟨frames, .string (.plain [])⟩ _ = _
  have hphase : ∀ q r c, q.step c = .more r →
      step ⟨frames, .string q⟩ c = .ok ⟨frames, .string r⟩ := by
    intro q r c hs
    simp only [step, hs]
  rw [run_feed hphase (Quote.feed_flatMap_escape s.toList []), run, hclose]

/-- A string in the place of a member's name. -/
theorem run_name (s : String) :
    run ⟨frames, .name members⟩ (writeString s rest) =
      run ⟨frames, .colon members (.ok s)⟩ rest := by
  -- The name begins at the first quotation mark and is complete at the second one.
  have hopen : step ⟨frames, .name members⟩ '"' = .ok ⟨frames, .key members (.plain [])⟩ := rfl
  have hclose : step ⟨frames, .key members (.plain (s.toList.reverse ++ []))⟩ '"' =
      .ok ⟨frames, .colon members (.ok s)⟩ := by
    simp only [step, closing]
  rw [writeString, run, hopen]
  show run ⟨frames, .key members (.plain [])⟩ _ = _
  have hphase : ∀ q r c, q.step c = .more r →
      step ⟨frames, .key members q⟩ c = .ok ⟨frames, .key members r⟩ := by
    intro q r c hs
    simp only [step, hs]
  rw [run_feed hphase (Quote.feed_flatMap_escape s.toList []), run, hclose]

end Scanner

end GraphCodec.Json
