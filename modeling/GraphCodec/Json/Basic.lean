import GraphCodec.Binary.Basic

/-!
# JSON trees

A `Json` tree keeps the members of an object as a list, in document order and with every member
of a repeated name, so that a reader can see a collision and report it.  A number is an integer or
a finite binary number; `single` numbers are only ever written, a number that has been read is an
`integer` or a `double`.

`Json.weight` bounds the size of a tree from below by that of any text it can be read from.
-/

namespace GraphCodec

/-- A JSON number. -/
inductive Json.Number where
  | integer (i : Int)
  | double (x : Finite binary64)
  | single (x : Finite binary32)
deriving DecidableEq, Repr

/-- A JSON value, with the members of an object in document order. -/
inductive Json where
  | null
  | bool (b : Bool)
  | number (n : Json.Number)
  | string (s : String)
  | array (items : List Json)
  | object (members : List (String × Json))
deriving Repr

namespace Json

/-- The kinds of JSON values. -/
inductive Kind where
  | null
  | boolean
  | number
  | string
  | array
  | object
deriving DecidableEq, Repr

/-- The name of a kind in messages. -/
def Kind.name : Kind → String
  | .null => "null"
  | .boolean => "boolean"
  | .number => "number"
  | .string => "string"
  | .array => "array"
  | .object => "object"

/-- The kind of a value. -/
def kind : Json → Kind
  | null => .null
  | bool _ => .boolean
  | number _ => .number
  | string _ => .string
  | array _ => .array
  | object _ => .object

/-- Whether the value is `null`. -/
def isNull : Json → Bool
  | null => true
  | _ => false

/-- The text of a string value. -/
def text? : Json → Option String
  | string s => some s
  | _ => none

/-- The first member of this name. -/
def member? (members : List (String × Json)) (name : String) : Option Json :=
  members.lookup name

/-- The first member of this name, if the value is an object. -/
def get? (j : Json) (name : String) : Option Json :=
  match j with
  | object members => member? members name
  | _ => none

mutual

/-- The size of a tree: one for every value, and the characters of its strings and names. -/
def weight : Json → Nat
  | null => 1
  | bool _ => 1
  | number _ => 1
  | string s => 1 + s.length
  | array items => 1 + weightItems items
  | object members => 1 + weightMembers members

/-- The sizes of the elements of an array together. -/
def weightItems : List Json → Nat
  | [] => 0
  | j :: rest => j.weight + weightItems rest

/-- The sizes of the members of an object together, a member's name included. -/
def weightMembers : List (String × Json) → Nat
  | [] => 0
  | (name, j) :: rest => 1 + name.length + j.weight + weightMembers rest

end

theorem weight_pos (j : Json) : 0 < j.weight := by
  cases j <;> simp only [weight] <;> omega

/-- An item weighs no more than the array that it stands in. -/
theorem weight_le_of_mem {j : Json} {items : List Json} (h : j ∈ items) :
    j.weight ≤ weightItems items := by
  induction items with
  | nil => simp at h
  | cons k rest ih =>
    simp only [weightItems]
    rcases List.mem_cons.1 h with rfl | h
    -- The item is the first one, or it stands in the rest.
    · omega
    · have := ih h; omega

/-- A member weighs less than the object, its name counted. -/
theorem weight_lt_of_mem {name : String} {j : Json} {members : List (String × Json)}
    (h : (name, j) ∈ members) : name.length + j.weight < weightMembers members := by
  induction members with
  | nil => simp at h
  | cons m rest ih =>
    obtain ⟨n, k⟩ := m
    simp only [weightMembers]
    rcases List.mem_cons.1 h with h | h
    · obtain ⟨rfl, rfl⟩ := Prod.mk.inj h
      omega
    · have := ih h; omega

/-- A member that is looked up is one of the members. -/
theorem mem_of_member? {members : List (String × Json)} {name : String} {j : Json}
    (h : member? members name = some j) : (name, j) ∈ members := by
  induction members with
  | nil => simp [member?] at h
  | cons m rest ih =>
    obtain ⟨n, k⟩ := m
    simp only [member?, List.lookup_cons] at h ih
    split at h
    -- The first member has the name that is asked for.
    · rename_i heq
      simp only [beq_iff_eq] at heq
      simp_all
    -- The name is found further on.
    · exact List.mem_cons_of_mem _ (ih h)

end Json

end GraphCodec
