import GraphCodec.Json.Printer
import GraphCodec.Proofs.Json.NumberScan

/-!
# The text of a number follows the grammar

`Number.parts` takes the text of a number apart, and the parts follow the grammar of numbers
whatever the number is (`Number.wellFormed_parts`).  What the text reads back as is then a matter of
arithmetic alone: `Number.reread?`.
-/

namespace GraphCodec

/-- A decimal number whose digits do not begin with a zero, or zero itself. -/
def Decimal.IsNormal (d : Decimal) : Prop := 0 < d.digits ∨ d = ⟨0, 0⟩

namespace DecimalLayout

open Decimal Json

/-- The parts of the positional form of a decimal number. -/
def positionalParts (negative : Bool) (d : Decimal) : NumberText :=
  let ds := digitsOf d.digits
  let places : Int := ds.length + d.exponent
  if 0 ≤ d.exponent then ⟨negative, ds ++ List.replicate d.exponent.toNat '0', ['0'], none⟩
  else if 0 < places then ⟨negative, ds.take places.toNat, ds.drop places.toNat, none⟩
  else ⟨negative, ['0'], List.replicate (-places).toNat '0' ++ ds, none⟩

/-- The parts of the scientific form of a decimal number. -/
def scientificParts (negative : Bool) (d : Decimal) : NumberText :=
  let ds := digitsOf d.digits
  let leading : Int := d.exponent + (ds.length - 1)
  ⟨negative, ds.take 1, ds.drop 1, some (leading < 0, digitsOf leading.natAbs)⟩

/-- The parts of the text of a decimal number. -/
def parts (l : DecimalLayout) (negative : Bool) (d : Decimal) : NumberText :=
  let leading : Int := d.exponent + ((digitsOf d.digits).length - 1)
  if l.least ≤ leading ∧ leading ≤ l.greatest then positionalParts negative d
  else scientificParts negative d

/-- A sign in front of a body. -/
private theorem signed_eq_append (negative : Bool) (body : List Char) :
    (if negative then '-' :: body else body) = (if negative then ['-'] else []) ++ body := by
  cases negative <;> rfl

/-- The parts of a positional text make up the text. -/
private theorem chars_positionalParts (negative : Bool) (d : Decimal) :
    (positionalParts negative d).chars =
      (if negative then ['-'] else []) ++ positional (digitsOf d.digits) d.exponent := by
  unfold positionalParts positional
  dsimp only
  -- Without a fraction a zero is written behind the point.
  by_cases he : 0 ≤ d.exponent
  · rw [if_pos he, if_pos he]
    simp [NumberText.chars, NumberText.fractionChars, NumberText.exponentChars]
  · rw [if_neg he, if_neg he]
    by_cases hp : 0 < ((digitsOf d.digits).length : Int) + d.exponent
    · rw [if_pos hp, if_pos hp]
      -- The exponent is negative, so some digits stand behind the point.
      have hne : ((digitsOf d.digits).drop
          (((digitsOf d.digits).length : Int) + d.exponent).toNat).isEmpty = false := by
        rw [List.isEmpty_eq_false_iff, Ne, List.drop_eq_nil_iff]
        omega
      simp [NumberText.chars, NumberText.fractionChars, NumberText.exponentChars, hne]
    -- Otherwise zeros stand behind the point, in front of the digits.
    · rw [if_neg hp, if_neg hp]
      have hne : (List.replicate (-(((digitsOf d.digits).length : Int) + d.exponent)).toNat '0' ++
          digitsOf d.digits).isEmpty = false := by
        rw [List.isEmpty_eq_false_iff]
        exact List.append_ne_nil_of_right_ne_nil _ (digitsOf_ne_nil _)
      simp only [NumberText.chars, NumberText.fractionChars, NumberText.exponentChars, hne,
        Bool.false_eq_true, if_false, List.append_nil, List.singleton_append]

/-- The parts of a scientific text make up the text. -/
private theorem chars_scientificParts (negative : Bool) (d : Decimal) :
    (scientificParts negative d).chars = (if negative then ['-'] else []) ++
      scientific (digitsOf d.digits) (d.exponent + ((digitsOf d.digits).length - 1)) := by
  unfold scientificParts scientific
  dsimp only
  -- A single digit has no point behind it.
  cases h : digitsOf d.digits with
  | nil => exact absurd h (digitsOf_ne_nil _)
  | cons c cs =>
    cases cs with
    | nil => simp [NumberText.chars, NumberText.fractionChars, NumberText.exponentChars]
    | cons c' cs => simp [NumberText.chars, NumberText.fractionChars, NumberText.exponentChars]

/-- The parts of a text make up the text. -/
private theorem toList_render (l : DecimalLayout) (negative : Bool) (d : Decimal) :
    (l.render negative d).toList = (l.parts negative d).chars := by
  unfold render parts
  dsimp only
  rw [String.toList_ofList, signed_eq_append]
  by_cases h : l.least ≤ d.exponent + ((digitsOf d.digits).length - 1) ∧
      d.exponent + ((digitsOf d.digits).length - 1) ≤ l.greatest
  · rw [if_pos h, if_pos h, chars_positionalParts]
  · rw [if_neg h, if_neg h, chars_scientificParts]

/-! ### The grammar -/

/-- Digits, none of which is lost when they are split, with a positive number in front. -/
private theorem head_ne_zero {d : Decimal} (hd : 0 < d.digits) {cs : List Char}
    (h : cs.head? = (digitsOf d.digits).head?) (h0 : cs.head? = some '0') : False := by
  rw [h] at h0
  exact head_digitsOf_ne hd h0

/-- A positional text follows the grammar. -/
theorem wellFormed_positionalParts (negative : Bool) {d : Decimal} (hd : d.IsNormal) :
    (positionalParts negative d).WellFormed := by
  have hdigit : ∀ c ∈ digitsOf d.digits, IsDigit c := fun _ => isDigit_of_mem_digitsOf
  have hzeros : ∀ n, ∀ c ∈ List.replicate n '0', IsDigit c := by
    intro n c hc
    rw [List.eq_of_mem_replicate hc]
    exact isDigit_zero
  unfold positionalParts
  dsimp only
  -- Zeros stand behind the digits, or a point in them, or zeros in front of them.
  by_cases he : 0 ≤ d.exponent
  · rw [if_pos he]
    refine ⟨?_, ?_, ?_, ?_, fun e h => nomatch h⟩
    -- The whole part has digits only.
    · intro c hc
      rcases List.mem_append.1 hc with hc | hc
      · exact hdigit c hc
      · exact hzeros _ c hc
    · exact List.append_ne_nil_of_left_ne_nil (digitsOf_ne_nil _) _
    -- Only zero begins with a zero, and it has no further digits.
    · intro h0
      rcases hd with hd | rfl
      · have hne : digitsOf d.digits ≠ [] := digitsOf_ne_nil _
        refine (head_ne_zero hd ?_ h0).elim
        rw [List.head?_append, List.head?_eq_some_head hne, Option.some_or]
      · rfl
    · intro c hc
      rw [List.mem_singleton.1 hc]
      exact isDigit_zero
  · rw [if_neg he]
    have hpos : 0 < d.digits := by
      rcases hd with hd | rfl
      · exact hd
      · exact absurd (Int.le_refl 0) he
    -- The point stands in the digits, or in front of all of them.
    by_cases hp : 0 < ((digitsOf d.digits).length : Int) + d.exponent
    · rw [if_pos hp]
      have hhead : ((digitsOf d.digits).take
          (((digitsOf d.digits).length : Int) + d.exponent).toNat).head? =
            (digitsOf d.digits).head? := by
        rw [List.head?_take, if_neg (by omega)]
      refine ⟨fun c hc => hdigit c (List.mem_of_mem_take hc), ?_, ?_,
        fun c hc => hdigit c (List.mem_of_mem_drop hc), fun e h => nomatch h⟩
      · rw [Ne, List.take_eq_nil_iff, not_or]
        exact ⟨by omega, digitsOf_ne_nil _⟩
      · exact fun h0 => (head_ne_zero hpos hhead h0).elim
    · rw [if_neg hp]
      refine ⟨?_, List.cons_ne_nil _ _, fun _ => rfl, ?_, fun e h => nomatch h⟩
      · intro c hc
        rw [List.mem_singleton.1 hc]
        exact isDigit_zero
      · intro c hc
        rcases List.mem_append.1 hc with hc | hc
        · exact hzeros _ c hc
        · exact hdigit c hc

/-- A scientific text follows the grammar. -/
private theorem wellFormed_scientificParts (negative : Bool) (d : Decimal) :
    (scientificParts negative d).WellFormed := by
  have hdigit : ∀ c ∈ digitsOf d.digits, IsDigit c := fun _ => isDigit_of_mem_digitsOf
  refine ⟨fun c hc => hdigit c (List.mem_of_mem_take hc), ?_, ?_,
    fun c hc => hdigit c (List.mem_of_mem_drop hc), ?_⟩
  · rw [scientificParts, Ne, List.take_eq_nil_iff, not_or]
    exact ⟨by decide, digitsOf_ne_nil _⟩
  · -- The whole part is a single digit, which may be a zero.
    intro h0
    cases h : digitsOf d.digits with
    | nil => exact absurd h (digitsOf_ne_nil _)
    | cons c cs =>
      simp only [scientificParts, h, List.take_succ_cons, List.take_zero, List.head?_cons,
        Option.some.injEq] at h0 ⊢
      rw [h0]
  -- The exponent is written with at least one digit.
  · intro e he
    rw [scientificParts, Option.mem_some_iff] at he
    subst he
    exact ⟨digitsOf_ne_nil _, fun _ => isDigit_of_mem_digitsOf⟩

/-- The text of a decimal follows the grammar in any layout. -/
theorem wellFormed_parts (l : DecimalLayout) (negative : Bool) {d : Decimal} (hd : d.IsNormal) :
    (l.parts negative d).WellFormed := by
  unfold parts
  dsimp only
  split
  · exact wellFormed_positionalParts negative hd
  · exact wellFormed_scientificParts negative d

end DecimalLayout

/-- The shortest decimal form of a number does not begin with a zero. -/
theorem Finite.isNormal_shortest {f : BinaryFormat} (x : Finite f) : x.shortest.IsNormal := by
  unfold Finite.shortest
  split
  · exact Or.inr rfl
  · unfold BinaryFormat.shortest
    dsimp only
    split
    case h_1 d hd =>
      -- Zero is no point of a grid.
      obtain ⟨j, -, hj⟩ := List.exists_of_findSome?_eq_some hd
      obtain ⟨n, hn, rfl⟩ := Option.map_eq_some_iff.1 hj
      have hmem := List.mem_of_mem_head? hn
      unfold BinaryFormat.gridPoints at hmem
      have := (List.mem_filter.1 hmem).2
      simp only [Bool.and_eq_true, decide_eq_true_eq] at this
      exact Or.inl (Nat.pos_of_ne_zero this.1)
    case h_2 => exact Or.inr rfl

namespace Json.Number

open Decimal

/-- The parts of the text of a number. -/
def parts : Number → NumberText
  | integer i => ⟨i < 0, digitsOf i.natAbs, [], none⟩
  | double x => doubleLayout.parts x.negative x.shortest
  | single x => singleLayout.parts x.negative x.shortest

/-- The parts of a text make up the text. -/
theorem toList_text (n : Number) : n.text.toList = n.parts.chars := by
  cases n with
  | integer i =>
    simp only [text, intText, String.toList_ofList, parts, NumberText.chars,
      NumberText.fractionChars, NumberText.exponentChars]
    by_cases h : i < 0 <;> simp [h]
  | double x => exact DecimalLayout.toList_render _ _ _
  | single x => exact DecimalLayout.toList_render _ _ _

/-- The text of a number follows the grammar. -/
theorem wellFormed_parts (n : Number) : n.parts.WellFormed := by
  cases n with
  -- An integer has digits only.
  | integer i =>
    refine ⟨fun _ => isDigit_of_mem_digitsOf, digitsOf_ne_nil _, ?_, (fun c h => nomatch h),
      (fun e h => nomatch h)⟩
    -- Only zero begins with a zero.
    intro h0
    by_cases hi : 0 < i.natAbs
    · exact absurd h0 (head_digitsOf_ne hi)
    · have : i.natAbs = 0 := by omega
      simp only [parts, this, digitsOf_zero]
  | double x => exact DecimalLayout.wellFormed_parts _ _ x.isNormal_shortest
  | single x => exact DecimalLayout.wellFormed_parts _ _ x.isNormal_shortest

/-- The number that the text of a number reads back as, unless that is out of range. -/
def reread? (n : Number) : Option Number := ofNumeral? n.parts.numeral

end Json.Number

end GraphCodec
