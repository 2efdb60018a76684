import Mathlib
import GraphCodec.Json.Reader

/-!
# Bounded nesting

A value is the value of a draft without faults (`Json.toDraft`), and a reader that goes through
that draft can only meet one problem: more levels of arrays and objects than it has room for.
`Room.within` is the outcome of such a reader: its value if there is room, otherwise the error of
its bound.  Readers one after another need room for the deeper of their drafts (`Room.within_bind`),
and a reader of the inside of an array or object needs one level less (`Room.enter_bind`).

`settle_toDraft` is the first such reader: it settles the draft of a value.
-/

namespace GraphCodec.Json

/-! ### Room for levels -/

namespace Room

/-- Whether so many levels may still be opened. -/
def Admits (room : Room) (levels : Nat) : Prop := ∀ n ∈ room, levels ≤ n

instance (room : Room) (levels : Nat) : Decidable (room.Admits levels) :=
  match room with
  | none => isTrue fun _ h => nomatch h
  | some n => decidable_of_iff (levels ≤ n) (by simp [Admits])

/-- The value of a reader that opens so many levels, or the error of its bound. -/
def within {ε α : Type} (room : Room) (limit : ε) (levels : Nat) (a : α) : Except ε α :=
  if room.Admits levels then .ok a else .error limit

section

variable {ε α β : Type} {room : Room} {limit : ε} {k l : Nat} {a : α} {b : β}

/-- There is room for the larger of two numbers of levels if there is room for both. -/
private theorem admits_max : room.Admits (max k l) ↔ room.Admits k ∧ room.Admits l := by
  simp only [Admits, Nat.max_le]
  exact ⟨fun h => ⟨fun n hn => (h n hn).1, fun n hn => (h n hn).2⟩,
    fun h n hn => ⟨h.1 n hn, h.2 n hn⟩⟩

@[simp] theorem within_zero : room.within limit 0 a = .ok a :=
  if_pos fun n _ => Nat.zero_le n

@[simp] theorem within_none : within none limit k a = .ok a :=
  if_pos fun _ h => nomatch h

/-- What is made of the value of a reader needs as much room. -/
@[simp] theorem map_within (f : α → β) :
    (room.within limit k a).map f = room.within limit k (f a) := by
  unfold within
  split <;> rfl

/-- Another name for the bound does not change the room. -/
@[simp] theorem mapError_within {ε' : Type} (f : ε → ε') :
    (room.within limit k a).mapError f = room.within (f limit) k a := by
  unfold within
  split <;> rfl

/-- Two readers one after the other need room for the deeper one. -/
theorem within_bind {f : α → Except ε β} (h : f a = room.within limit l b) :
    (room.within limit k a >>= f) = room.within limit (max k l) b := by
  by_cases hk : room.Admits k
  · have hmax : room.Admits (max k l) ↔ room.Admits l := by simp only [admits_max, hk, true_and]
    rw [within, if_pos hk, within, if_congr hmax rfl rfl]
    exact h
  · rw [within, if_neg hk, within, if_neg fun hmax => hk (admits_max.1 hmax).1]
    rfl

/-- What follows a reader and opens nothing needs no room. -/
theorem within_bind_ok {f : α → Except ε β} (h : f a = .ok b) :
    (room.within limit k a >>= f) = room.within limit k b := by
  rw [within_bind (h.trans within_zero.symm), Nat.max_zero]

/-- Opening an array or object takes one level. -/
theorem enter_bind {f : Room → Except SyntaxError α}
    (h : ∀ inner, f inner = within inner .recursionLimit k a) :
    (room.enter >>= f) = room.within .recursionLimit (k + 1) a := by
  match room with
  -- Without a bound, without a level left, and with one.
  | none => exact (h none).trans (within_none.trans within_none.symm)
  | some 0 => rfl
  | some (n + 1) =>
    have hadmits : Admits (some n) k ↔ Admits (some (n + 1)) (k + 1) := by
      simp [Admits]
    exact (h (some n)).trans (if_congr hadmits rfl rfl)

end

end Room

/-! ### Values and their drafts -/

mutual

/-- How deep arrays and objects are nested in a value. -/
def depth : Json → Nat
  | array items => depthItems items + 1
  | object members => depthMembers members + 1
  | null | bool _ | number _ | string _ => 0

/-- How deep arrays and objects are nested in some elements. -/
def depthItems : List Json → Nat
  | [] => 0
  | j :: rest => max j.depth (depthItems rest)

/-- How deep arrays and objects are nested in some members. -/
def depthMembers : List (String × Json) → Nat
  | [] => 0
  | (_, j) :: rest => max j.depth (depthMembers rest)

end

/-- Items are as deep as the deepest of them. -/
theorem depthItems_le_iff {items : List Json} {n : Nat} :
    depthItems items ≤ n ↔ ∀ j ∈ items, j.depth ≤ n := by
  induction items with
  | nil => simp [depthItems]
  | cons j rest ih => rw [depthItems, Nat.max_le, ih, List.forall_mem_cons]

mutual

/-- The draft without faults that settles to a value. -/
def toDraft : Json → Draft
  | null => .null
  | bool b => .bool b
  | number n => .number n
  | string s => .string s
  | array items => .array (toDrafts items) none
  | object members => .object (toDraftMembers members) none

/-- The drafts of elements. -/
def toDrafts : List Json → List Draft
  | [] => []
  | j :: rest => j.toDraft :: toDrafts rest

/-- The drafts of members. -/
def toDraftMembers : List (String × Json) → List Draft.Member
  | [] => []
  | (name, j) :: rest => (.ok name, j.toDraft) :: toDraftMembers rest

end

mutual

/-- The draft of a value settles to the value if there is room for its levels. -/
theorem settle_toDraft_within (room : Room) (j : Json) :
    j.toDraft.settle room = room.within .recursionLimit j.depth j := by
  -- Scalars need no room, and arrays and objects one level more than what is inside.
  cases j with
  | null | bool b | number n | string s => rw [depth, Room.within_zero]; rfl
  | array items =>
    rw [toDraft, Draft.settle, depth]
    refine Room.enter_bind fun inner => ?_
    rw [settleItems_toDrafts inner items]
    exact Room.within_bind_ok rfl
  | object members =>
    rw [toDraft, Draft.settle, depth]
    refine Room.enter_bind fun inner => ?_
    rw [settleMembers_toDraftMembers inner members]
    exact Room.within_bind_ok rfl

/-- The drafts of items settle to the items if there is room for the deepest. -/
theorem settleItems_toDrafts (room : Room) (items : List Json) :
    Draft.settleItems room (toDrafts items) =
      room.within .recursionLimit (depthItems items) items := by
  cases items with
  | nil => rw [depthItems, Room.within_zero]; rfl
  | cons j rest =>
    -- The first item and the rest each need room.
    rw [toDrafts, Draft.settleItems, depthItems, settle_toDraft_within room j,
      settleItems_toDrafts room rest]
    exact Room.within_bind (Room.map_within (j :: ·))

/-- The drafts of members settle to the members if there is room for the deepest. -/
theorem settleMembers_toDraftMembers (room : Room) (members : List (String × Json)) :
    Draft.settleMembers room (toDraftMembers members) =
      room.within .recursionLimit (depthMembers members) members := by
  cases members with
  | nil => rw [depthMembers, Room.within_zero]; rfl
  | cons m rest =>
    -- The first member and the rest each need room.
    obtain ⟨name, j⟩ := m
    rw [toDraftMembers, Draft.settleMembers, depthMembers, settle_toDraft_within room j,
      settleMembers_toDraftMembers room rest]
    exact Room.within_bind (Room.map_within ((name, j) :: ·))

end

/-- The draft of a value settles to the value, however deep it is nested. -/
theorem settle_toDraft (j : Json) : j.toDraft.settle none = .ok j := by
  rw [settle_toDraft_within, Room.within_none]

end GraphCodec.Json
