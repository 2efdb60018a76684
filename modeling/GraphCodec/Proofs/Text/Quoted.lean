import GraphCodec.Emission.CodecSource
import GraphCodec.Json.Quote

/-!
# Quoted strings read back

A string literal of emitted source is read one character at a time, as the language of that source
reads it: short escapes stand for one character, and an escape by number for the character of that
number.  A quoted string reads back as the string, whatever its characters are (`readQuoted_quote`),
and so does a list of literals (`readLiterals_literals`).
-/

namespace GraphCodec.Text

open Json.Quote (hexValue?)

/-- Where in a string literal the reader is. -/
inductive LiteralPhase where
  | plain
  /-- After a backslash. -/
  | escape
  /-- After the letter of an escape by number. -/
  | brace
  /-- Inside the braces, with the value of the digits so far. -/
  | number (n : Nat)

/-- The character that a short escape stands for. -/
def shortEscape? : Char → Option Char
  | '0' => some '\x00'
  | 't' => some '\t'
  | 'r' => some '\r'
  | 'n' => some '\n'
  | '"' => some '"'
  | '\\' => some '\\'
  | _ => none

/-- A character in front of what was read. -/
def readBefore (c : Char) (r : List Char × List Char) : List Char × List Char := (c :: r.1, r.2)

/-- Reads a string literal up to its closing quote: its characters, and what stands behind it. -/
def unquote : LiteralPhase → List Char → Option (List Char × List Char)
  | _, [] => none
  | .plain, c :: rest =>
    if c = '"' then some ([], rest)
    else if c = '\\' then unquote .escape rest
    else (unquote .plain rest).map (readBefore c)
  | .escape, c :: rest =>
    if c = 'u' then unquote .brace rest
    else (shortEscape? c).bind fun d => (unquote .plain rest).map (readBefore d)
  | .brace, c :: rest => if c = '{' then unquote (.number 0) rest else none
  | .number n, c :: rest =>
    if c = '}' then (unquote .plain rest).map (readBefore (Char.ofNat n))
    else (hexValue? c).bind fun d => unquote (.number (16 * n + d)) rest

/-- Reads a string literal. -/
def readQuoted : List Char → Option (String × List Char)
  | '"' :: rest => (unquote .plain rest).map fun r => (String.ofList r.1, r.2)
  | _ => none

/-! ### Escapes by number -/

/-- The digits that are written for the numbers below sixteen are read as these numbers. -/
private theorem hexValue?_digitChar : ∀ n < 16, hexValue? (Nat.digitChar n) = some n := by decide

private theorem digitChar_ne_brace : ∀ n < 16, Nat.digitChar n ≠ '}' := by decide

/-- A digit of an escape by number. -/
private theorem unquote_digit (n : Nat) {d : Nat} (hd : d < 16) (rest : List Char) :
    unquote (.number n) (Nat.digitChar d :: rest) = unquote (.number (16 * n + d)) rest := by
  rw [unquote, if_neg (digitChar_ne_brace d hd), hexValue?_digitChar d hd]
  rfl

/-- The digits of a number are read as the number. -/
private theorem unquote_toDigits (n : Nat) (rest : List Char) :
    unquote (.number 0) (Nat.toDigits 16 n ++ rest) = unquote (.number n) rest := by
  induction n using Nat.strongRecOn generalizing rest with
  | ind n ih =>
    rw [Nat.toDigits_eq_if (by decide)]
    split
    case isTrue hn =>
      rw [List.singleton_append, unquote_digit 0 hn, Nat.mul_zero, Nat.zero_add]
    case isFalse hn =>
      -- The last digit is read behind those of the quotient.
      rw [List.append_assoc, ih (n / 16) (by omega), List.singleton_append,
        unquote_digit _ (Nat.mod_lt n (by decide)), Nat.div_add_mod]

/-! ### Strings -/

/-- What stands for a character in a quoted string is read as the character. -/
private theorem unquote_quoteChar (c : Char) (rest : List Char) :
    unquote .plain (quoteChar c ++ rest) = (unquote .plain rest).map (readBefore c) := by
  unfold quoteChar
  split
  case h_7 hquote hbackslash =>
    -- No short escape: the character stands for itself or is escaped by number.
    split
    case isTrue =>
      show unquote (.number 0) (Nat.toDigits 16 c.toNat ++ ['}'] ++ rest) = _
      rw [List.append_assoc, unquote_toDigits, List.singleton_append, unquote, if_pos rfl,
        Char.ofNat_toNat]
    case isFalse =>
      rw [List.singleton_append, unquote, if_neg hquote, if_neg hbackslash]
  all_goals rfl

/-- The written characters of a string are read back one after the other, up to the quote behind
them. -/
private theorem unquote_flatMap_quoteChar (cs rest : List Char) :
    unquote .plain (cs.flatMap quoteChar ++ '"' :: rest) = some (cs, rest) := by
  -- One character at a time, each followed by the others.
  induction cs with
  | nil => rfl
  | cons c cs ih =>
    rw [List.flatMap_cons, List.append_assoc, unquote_quoteChar, ih]
    rfl

/-- A quoted string consists of its written characters between two quotes. -/
theorem toList_quote (s : String) :
    (quote s).toList = '"' :: (s.toList.flatMap quoteChar ++ ['"']) :=
  String.toList_ofList

/-- A quoted string is read as the string. -/
theorem readQuoted_quote (s : String) (rest : List Char) :
    readQuoted ((quote s).toList ++ rest) = some (s, rest) := by
  rw [toList_quote, List.cons_append, List.append_assoc, List.singleton_append, readQuoted,
    unquote_flatMap_quoteChar, Option.map_some, String.ofList_toList]

/-! ### Lists of literals -/

/-- A character in front of what was read leaves over what was left over. -/
private theorem length_of_readBefore {c : Char} {x : Option (List Char × List Char)}
    {r : List Char × List Char} {n : Nat} (hx : ∀ r, x = some r → r.2.length < n)
    (h : x.map (readBefore c) = some r) : r.2.length < n + 1 := by
  obtain ⟨r', hr', rfl⟩ := Option.map_eq_some_iff.1 h
  exact Nat.lt_succ_of_lt (hx r' hr')

/-- Reading a literal goes forward. -/
private theorem length_unquote {phase : LiteralPhase} {cs : List Char} {r : List Char × List Char}
    (h : unquote phase cs = some r) : r.2.length < cs.length := by
  -- In every phase, so the phase is general.
  induction cs generalizing phase r with
  | nil => cases phase <;> cases h
  | cons c rest ih =>
    cases phase with
    | plain =>
      -- A quote ends the literal, a backslash begins an escape, and anything else is a character.
      rw [unquote] at h
      split at h
      · cases h
        exact Nat.lt_succ_self _
      · split at h
        · exact Nat.lt_succ_of_lt (ih h)
        · exact length_of_readBefore (fun _ => ih) h
    | escape =>
      -- An opening brace is expected behind the letter that announces a number.
      rw [unquote] at h
      split at h
      · exact Nat.lt_succ_of_lt (ih h)
      · obtain ⟨d, -, h⟩ := Option.bind_eq_some_iff.1 h
        exact length_of_readBefore (fun _ => ih) h
    | brace =>
      -- Only a brace may follow.
      rw [unquote] at h
      split at h
      · exact Nat.lt_succ_of_lt (ih h)
      · cases h
    | number n =>
      -- A closing brace ends the number, and a digit extends it.
      rw [unquote] at h
      split at h
      · exact length_of_readBefore (fun _ => ih) h
      · obtain ⟨d, -, h⟩ := Option.bind_eq_some_iff.1 h
        exact Nat.lt_succ_of_lt (ih h)

/-- Reading a quoted string goes forward as well. -/
private theorem length_readQuoted {cs rest : List Char} {s : String}
    (h : readQuoted cs = some (s, rest)) : rest.length < cs.length := by
  unfold readQuoted at h
  -- The first character has to be a quote.
  split at h
  · obtain ⟨r, hr, heq⟩ := Option.map_eq_some_iff.1 h
    cases heq
    exact Nat.lt_succ_of_lt (length_unquote hr)
  · cases h

/-- Reads the string literals of an array up to its end. -/
def readLiterals (cs : List Char) : Option (List String) :=
  match _h : readQuoted cs with
  | some (s, ',' :: ' ' :: rest) => (readLiterals rest).map (s :: ·)
  | some (s, [']', ';']) => some [s]
  | some _ => none
  | none => if cs = [']', ';'] then some [] else none
termination_by cs.length
decreasing_by
  have := length_readQuoted _h
  simp only [List.length_cons] at this
  omega

/-- The literals of some strings, with commas between them, are read as the strings. -/
theorem readLiterals_literals (names : List String) :
    readLiterals ((literals names).toList ++ [']', ';']) = some names := by
  induction names with
  -- Behind the literals stands the end of the array.
  | nil =>
    rw [readLiterals]
    rfl
  | cons name names ih =>
    -- Behind the last literal stands the end of the array, behind any other one a comma.
    cases names with
    | nil =>
      rw [literals, List.map_singleton, String.intercalate_singleton, readLiterals,
        readQuoted_quote]
      rfl
    | cons next names =>
      have hcons : (literals (name :: next :: names)).toList ++ [']', ';'] =
          (quote name).toList ++
            ',' :: ' ' :: ((literals (next :: names)).toList ++ [']', ';']) := by
        rw [literals, List.map_cons, List.map_cons, String.intercalate_cons_cons, ← List.map_cons,
          ← literals, String.toList_append, String.toList_append]
        simp
      rw [hcons, readLiterals, readQuoted_quote]
      show (readLiterals _).map _ = _
      rw [ih]
      rfl

end GraphCodec.Text
