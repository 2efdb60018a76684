import Mathlib.Data.List.DropRight
import Mathlib.Data.List.Forall2
import Mathlib.Data.List.Nodup
import Mathlib.Data.List.TakeDrop

/-!
# Facts about lists

Two lists that are related element by element (`List.Forall₂.exists_of_mem_right`,
`List.forall₂_zip_iff`), lists that are cut at an element (`List.span_append`,
`List.exists_of_append_eq`), elements that are told apart by a key (`List.filter_eq_singleton`), and
what is sorted by name (`List.mergeSort_eq_of_perm`).
-/

namespace List

/-! ### Lists related element by element -/

section Related

variable {α β γ : Type}

/-- In two lists that are related one by one, what stands in the second is related to something in
the first. -/
theorem Forall₂.exists_of_mem_right {R : α → β → Prop} {as : List α} {bs : List β} {b : β}
    (h : Forall₂ R as bs) (hb : b ∈ bs) : ∃ a ∈ as, R a b := by
  induction h with
  | nil => cases hb
  | cons ha _ ih =>
    -- The element is the head or stands behind it.
    cases mem_cons.1 hb with
    | inl heq => exact ⟨_, mem_cons_self, heq ▸ ha⟩
    | inr hb =>
      obtain ⟨a, ha, hr⟩ := ih hb
      exact ⟨a, mem_cons_of_mem _ ha, hr⟩

/-- In two lists that are related one by one, what stands in the first is related to something in
the second. -/
theorem Forall₂.exists_of_mem_left {R : α → β → Prop} {as : List α} {bs : List β} {a : α}
    (h : Forall₂ R as bs) (ha : a ∈ as) : ∃ b ∈ bs, R a b := by
  have hflip : Forall₂ (fun b a => R a b) bs as := h.flip
  exact hflip.exists_of_mem_right ha

/-- Two lists of one length are related to a third element by element if both of them are. -/
theorem forall₂_zip_iff {R : α → γ → Prop} {S : β → γ → Prop} {as : List α} {bs : List β}
    {cs : List γ} (h : as.length = bs.length) :
    Forall₂ (fun p c => R p.1 c ∧ S p.2 c) (as.zip bs) cs ↔ Forall₂ R as cs ∧ Forall₂ S bs cs := by
  induction as generalizing bs cs with
  | nil =>
    rw [eq_nil_of_length_eq_zero h.symm]
    simp
  | cons a as ih =>
    -- Both lists have an element, or none.
    cases bs with
    | nil => cases h
    | cons b bs =>
      cases cs with
      | nil => simp
      | cons c cs => simp [ih (Nat.succ.inj h), and_and_and_comm]

/-- What two lists that are related to a third one hold, one thing for each. -/
theorem map_eq_of_forall₂ {r : α → β → Prop} {r' : α → γ → Prop} {f : β → γ} {as : List α}
    {bs : List β} {cs : List γ} (hbs : Forall₂ r as bs) (hcs : Forall₂ r' as cs)
    (hf : ∀ a b c, r a b → r' a c → f b = c) : bs.map f = cs := by
  induction hbs generalizing cs with
  | nil =>
    cases hcs
    rfl
  | cons hb _ ih =>
    cases hcs with
    | cons hc hcs => rw [map_cons, hf _ _ _ hb hc, ih hcs]

end Related

/-! ### Cutting a list -/

section Cut

variable {α : Type}

/-- A list is split where its elements no longer satisfy a predicate. -/
theorem span_append {p : α → Bool} {front : List α} (hfront : ∀ c ∈ front, p c = true)
    (rest : List α) (hrest : ∀ c ∈ rest.head?, p c = false) :
    (front ++ rest).span p = (front, rest) := by
  -- The rest stops at its first element.
  have hstop : rest.takeWhile p = [] ∧ rest.dropWhile p = rest := by
    cases rest with
    | nil => exact ⟨rfl, rfl⟩
    | cons c rest => simp [hrest c rfl]
  rw [span_eq_takeWhile_dropWhile, takeWhile_append_of_pos hfront, dropWhile_append_of_pos hfront,
    hstop.1, hstop.2, append_nil]

/-- An element that is not in the front part of a list stands in the rest. -/
theorem exists_of_append_eq {front rest before after : List α} {a : α} (ha : a ∉ front)
    (h : front ++ rest = before ++ a :: after) :
    ∃ mid, before = front ++ mid ∧ rest = mid ++ a :: after := by
  rcases append_eq_append_iff.1 h with ⟨mid, hbefore, hrest⟩ | ⟨mid, hfront, hafter⟩
  · exact ⟨mid, hbefore, hrest⟩
  · -- The two cuts are at one place, or `a` would stand in front of the first.
    cases mid with
    | nil => exact ⟨[], by rw [hfront, append_nil, append_nil], hafter.symm⟩
    | cons b mid =>
      rw [cons_append, cons.injEq] at hafter
      exact absurd (by rw [hfront, hafter.1]; simp) ha

/-- Of a list in which something is to be kept, the first element is kept. -/
theorem rdropWhile_cons_of_exists {p : α → Bool} {a : α} {l : List α}
    (h : ∃ x ∈ a :: l, p x = false) : (a :: l).rdropWhile p = a :: l.rdropWhile p := by
  rw [rdropWhile, rdropWhile, reverse_cons, dropWhile_append]
  split
  case isTrue hall =>
    -- Everything behind the first element is dropped, so that is what is to be kept.
    rw [isEmpty_iff, dropWhile_eq_nil_iff] at hall
    obtain ⟨x, hx, hpx⟩ := h
    have hpa : p a = false := by
      rcases mem_cons.1 hx with rfl | hx
      · exact hpx
      · rw [hall x (mem_reverse.2 hx)] at hpx
        cases hpx
    rw [dropWhile_eq_nil_iff.2 hall, dropWhile_cons_of_neg (by simp [hpa])]
    rfl
  case isFalse => rw [reverse_append]; rfl

end Cut

/-! ### Elements told apart -/

section Apart

variable {α β : Type}

/-- An element is the only one with its key where the keys differ. -/
theorem filter_eq_singleton [DecidableEq β] {key : α → β} {l : List α} {a : α} (ha : a ∈ l)
    (h : (l.map key).Nodup) : l.filter (key · = key a) = [a] := by
  induction l with
  | nil => cases ha
  | cons x l ih =>
    rw [map_cons, nodup_cons] at h
    rw [filter_cons]
    rcases mem_cons.1 ha with rfl | ha
    · -- The element is the head: nothing behind it has its key.
      rw [if_pos (decide_eq_true rfl), filter_eq_nil_iff.2]
      exact fun y hy heq => h.1 (of_decide_eq_true heq ▸ mem_map_of_mem hy)
    -- The element stands behind the head, which has another key then.
    · rw [if_neg, ih ha h.2]
      exact fun heq => h.1 (of_decide_eq_true heq ▸ mem_map_of_mem ha)

/-- Lists whose elements are told apart by what they are mapped to are told apart by it. -/
theorem eq_of_map_eq {f : α → β} {l l' : List α} (hinj : ∀ a ∈ l, ∀ b ∈ l', f a = f b → a = b)
    (h : l.map f = l'.map f) : l = l' := by
  induction l generalizing l' with
  | nil => exact (map_eq_nil_iff.1 h.symm).symm
  | cons a l ih =>
    cases l' with
    | nil => cases h
    | cons b l' =>
      -- The heads are mapped to the same, and so are the rests.
      obtain ⟨hab, hrest⟩ := cons.inj h
      rw [hinj a mem_cons_self b mem_cons_self hab, ih (fun x hx y hy =>
        hinj x (mem_cons_of_mem _ hx) y (mem_cons_of_mem _ hy)) hrest]

end Apart

/-! ### Sorting by name -/

section Sorted

variable {α : Type}

/-- What is sorted by name comes in ascending order of name. -/
theorem pairwise_mergeSort_name (name : α → String) (l : List α) :
    (l.mergeSort fun a b => name a ≤ name b).Pairwise fun a b => name a ≤ name b := by
  refine (pairwise_mergeSort ?_ ?_ l).imp fun hab => of_decide_eq_true hab
  · intro a b c hab hbc
    exact decide_eq_true (String.le_trans (of_decide_eq_true hab) (of_decide_eq_true hbc))
  · intro a b
    simpa using String.le_total (name a) (name b)

/-- Different texts in ascending order are in strictly ascending order. -/
theorem pairwise_lt_of_nodup {l : List String} (h : l.Pairwise (· ≤ ·)) (hnodup : l.Nodup) :
    l.Pairwise (· < ·) := by
  refine (h.and hnodup).imp ?_
  rintro a b ⟨hle, hne⟩
  exact String.not_le.1 fun hge => hne (String.le_antisymm hle hge)

/-- The order in which elements are given does not matter where they are sorted by names that tell
them apart. -/
theorem mergeSort_eq_of_perm {name : α → String} {l l' : List α} (h : l.Perm l')
    (hname : ∀ a ∈ l, ∀ b ∈ l, name a = name b → a = b) :
    (l.mergeSort fun a b => name a ≤ name b) = l'.mergeSort fun a b => name a ≤ name b := by
  refine Perm.eq_of_pairwise (fun a b ha hb hab hba => ?_)
    (pairwise_mergeSort_name name l) (pairwise_mergeSort_name name l')
    ((mergeSort_perm l _).trans (h.trans (mergeSort_perm l' _).symm))
  exact hname a (mem_mergeSort.1 ha) b (h.mem_iff.2 (mem_mergeSort.1 hb))
    (String.le_antisymm hab hba)

end Sorted

end List
