import GraphCodec.Decimal.Basic
import GraphCodec.Generation.Identity

/-!
# Identities are identifiers

An identity is made of what stands for the characters of a name, and of a suffix.  Whatever the name
is, its part consists of ASCII letters, digits and underscores and does not begin with a digit; so
an identity is an identifier if the suffix is one (`isIdentifier_codecIdentity`).
-/

namespace GraphCodec

/-- Whether a character may stand in an identifier. -/
def IsIdentifierChar (c : Char) : Prop := c.isAlphanum ∨ c = '_'

instance (c : Char) : Decidable (IsIdentifierChar c) :=
  inferInstanceAs (Decidable (c.isAlphanum ∨ c = '_'))

/-- Whether a text is an identifier. -/
structure IsIdentifier (s : String) : Prop where
  chars : ∀ c ∈ s.toList, IsIdentifierChar c
  first : ∃ c rest, s.toList = c :: rest ∧ c.isDigit = false

private theorem isIdentifierChar_underscore : IsIdentifierChar '_' := Or.inr rfl

/-- No space stands in an identifier. -/
theorem IsIdentifierChar.ne_space {c : Char} (h : IsIdentifierChar c) : c ≠ ' ' := by
  rintro rfl
  exact absurd h (by decide)

/-- The part of an identity that a name makes. -/
def identityStem (name : List Char) : List Char := identityGuard name ++ name.flatMap identityChar

theorem codecIdentity_eq (name suffix : String) :
    codecIdentity name suffix = String.ofList (identityStem name.toList) ++ suffix := rfl

/-- What stands for a character may stand in an identifier. -/
private theorem isIdentifierChar_of_mem_identityChar {c d : Char} (h : d ∈ identityChar c) :
    IsIdentifierChar d := by
  unfold identityChar at h
  split at h
  case isTrue =>
    simp only [List.mem_cons, List.not_mem_nil, or_false, or_self] at h
    exact Or.inr h
  case isFalse =>
    split at h
    case isTrue hc => exact Or.inl (List.mem_singleton.1 h ▸ hc)
    case isFalse => exact Or.inr (List.mem_singleton.1 h)

/-- A guard in front of a name is an underscore. -/
theorem eq_of_mem_identityGuard {name : List Char} {c : Char} (h : c ∈ identityGuard name) :
    c = '_' := by
  unfold identityGuard at h
  split at h
  · split at h
    · exact List.mem_singleton.1 h
    · cases h
  · cases h

/-- A name makes letters, digits and underscores, whatever its characters are. -/
theorem isIdentifierChar_of_mem_identityStem {name : List Char} {c : Char}
    (h : c ∈ identityStem name) : IsIdentifierChar c := by
  rcases List.mem_append.1 h with h | h
  · exact Or.inr (eq_of_mem_identityGuard h)
  · obtain ⟨d, -, h⟩ := List.mem_flatMap.1 h
    exact isIdentifierChar_of_mem_identityChar h

/-- What a name makes does not begin with a digit. -/
theorem isDigit_of_mem_head?_identityStem {name : List Char} {c : Char}
    (h : c ∈ (identityStem name).head?) : c.isDigit = false := by
  have hunderscore : ('_' : Char).isDigit = false := by decide
  -- A digit in front gets an underscore before it; another character is kept or becomes one.
  cases name with
  | nil => cases h
  | cons d name =>
    unfold identityStem identityGuard at h
    dsimp only at h
    split at h
    case isTrue =>
      cases h
      exact hunderscore
    case isFalse hd =>
      rw [List.nil_append, List.flatMap_cons] at h
      unfold identityChar at h
      split at h
      · cases h
        exact hunderscore
      · split at h
        · cases h
          exact Bool.eq_false_iff.2 hd
        · cases h
          exact hunderscore

/-- Letters, digits and underscores in front of an identifier, not beginning with a digit. -/
theorem IsIdentifier.prepend {s : String} (h : IsIdentifier s) {cs : List Char}
    (hchars : ∀ c ∈ cs, IsIdentifierChar c) (hfirst : ∀ c ∈ cs.head?, c.isDigit = false) :
    IsIdentifier (String.ofList cs ++ s) := by
  constructor
  -- The characters of both parts may stand in identifiers.
  · intro c hc
    rw [String.toList_append, String.toList_ofList] at hc
    rcases List.mem_append.1 hc with hc | hc
    · exact hchars c hc
    · exact h.chars c hc
  -- The first character is that of the first part, or of the identifier if that part is empty.
  · rw [String.toList_append, String.toList_ofList]
    cases cs with
    | nil => exact h.first
    | cons c cs => exact ⟨c, cs ++ s.toList, rfl, hfirst c rfl⟩

/-- An identity is an identifier if its suffix is one. -/
theorem isIdentifier_codecIdentity (name : String) {suffix : String} (h : IsIdentifier suffix) :
    IsIdentifier (codecIdentity name suffix) :=
  h.prepend (fun _ => isIdentifierChar_of_mem_identityStem)
    fun _ => isDigit_of_mem_head?_identityStem

/-- So is one with a number in front of the suffix. -/
theorem isIdentifier_numbered (name : String) (n : Nat) {suffix : String}
    (h : IsIdentifier suffix) :
    IsIdentifier (codecIdentity name "" ++ "_" ++ Decimal.natText n ++ suffix) := by
  -- The underscore in front of the number keeps the digits from being first.
  have hend : IsIdentifier (String.ofList ('_' :: Decimal.digitsOf n) ++ suffix) := by
    refine h.prepend (fun c hc => ?_) fun c hc => ?_
    · rcases List.mem_cons.1 hc with rfl | hc
      · exact isIdentifierChar_underscore
      · have hdigit : c.isDigit = true :=
          Nat.isDigit_of_mem_toDigits (by decide) (by decide) hc
        exact Or.inl (by rw [Char.isAlphanum, hdigit, Bool.or_true])
    · cases hc
      decide
  -- Together they are the identity with the number.
  have heq : codecIdentity name "" ++ "_" ++ Decimal.natText n ++ suffix =
      String.ofList (identityStem name.toList) ++
        (String.ofList ('_' :: Decimal.digitsOf n) ++ suffix) := by
    rw [String.ext_iff]
    simp [codecIdentity_eq, Decimal.natText]
  rw [heq]
  exact hend.prepend (fun _ => isIdentifierChar_of_mem_identityStem)
    fun _ => isDigit_of_mem_head?_identityStem

end GraphCodec
