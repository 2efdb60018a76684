import Mathlib
import GraphCodec.Proofs.Json.NumberRange
import GraphCodec.Proofs.Json.Pretty

/-!
# JSON that nothing is lost of

The text of a value whose numbers are integers of 64 bits reads back as the value itself
(`parse_render_of_isExact`).  Texts and names hold any characters, a name may be repeated, and there
is no bound on the nesting.
-/

namespace GraphCodec.Json

/-- Values all of whose numbers are integers of 64 bits, signed or unsigned. -/
inductive IsExact : Json → Prop where
  | null : IsExact null
  | bool (b : Bool) : IsExact (bool b)
  | integer {i : Int} (hlow : -2 ^ 63 ≤ i) (hhigh : i < 2 ^ 64) : IsExact (number (.integer i))
  | string (s : String) : IsExact (string s)
  | array {items : List Json} (h : ∀ j ∈ items, IsExact j) : IsExact (array items)
  | object {members : List (String × Json)} (h : ∀ m ∈ members, IsExact m.2) :
    IsExact (object members)

namespace IsExact

theorem members_nil : IsExact (.object []) :=
  .object fun _ hm => absurd hm List.not_mem_nil

/-- A member with an exact value keeps an object exact. -/
theorem members_cons {name : String} {j : Json} {rest : List (String × Json)} (hj : j.IsExact)
    (hrest : IsExact (.object rest)) : IsExact (.object ((name, j) :: rest)) := by
  cases hrest with
  | object hrest => exact .object (List.forall_mem_cons.2 ⟨hj, hrest⟩)

/-- Every number of an exact value has a text that reads back. -/
theorem readable {j : Json} (hj : j.IsExact) : j.Readable := by
  induction hj with
  | null | bool | string => trivial
  | integer hlow hhigh =>
    rw [Readable, Number.reread?_integer hlow hhigh]
    rfl
  | array _ ih => exact readableItems_iff.2 ih
  | object _ ih => exact readableMembers_iff.2 ih

/-- The numbers of an exact value read back as themselves. -/
theorem reread_eq {j : Json} (hj : j.IsExact) : j.reread = j := by
  induction hj with
  | null | bool | string => rfl
  -- Integers of 64 bits are read back as they are.
  | integer hlow hhigh =>
    rw [reread, Number.reread, Number.reread?_integer hlow hhigh, Option.getD_some]
  -- The parts of a value are read back one by one.
  | array _ ih => rw [reread, rereadItems_eq_map, List.map_congr_left ih, List.map_id']
  | object _ ih =>
    have hmembers : ∀ m ∈ _, (fun m : String × Json => (m.1, m.2.reread)) m = m :=
      fun m hm => Prod.ext rfl (ih m hm)
    rw [reread, rereadMembers_eq_map, List.map_congr_left hmembers, List.map_id']

end IsExact

/-- The text of an exact value is scanned as the value. -/
theorem IsExact.scan_render {j : Json} (hj : j.IsExact) :
    Document.scan j.render = ⟨j.toDraft, false⟩ := by
  rw [Json.scan_render hj.readable, hj.reread_eq]

/-- The pretty text of an exact value is scanned as the value. -/
theorem IsExact.scan_renderPretty {j : Json} (hj : j.IsExact) :
    Document.scan j.renderPretty = ⟨j.toDraft, false⟩ := by
  rw [Json.scan_renderPretty hj.readable, hj.reread_eq]

/-- The text of an exact value reads back as the value: every member is in its place, those of a
repeated name included, and every text and name is the same character by character. -/
theorem parse_render_of_isExact {j : Json} (hj : j.IsExact) : parse j.render = .ok j := by
  rw [parse, hj.scan_render, Document.read, settle_toDraft]
  rfl

/-- A value with a repeated name, an empty name, characters that are escaped and the least and the
greatest integer. -/
def crowded : Json :=
  object [("a", number (.integer (-2 ^ 63))), ("", array [string "\"\\\n\x01é", object []]),
    ("a", number (.integer (2 ^ 64 - 1))), ("a\tb", null)]

/-- The crowded value has integers of 64 bits only. -/
private theorem isExact_crowded : crowded.IsExact := by
  have hitems : ∀ j ∈ [string "\"\\\n\x01é", object []], j.IsExact :=
    List.forall_mem_cons.2 ⟨.string _, List.forall_mem_singleton.2 .members_nil⟩
  exact .members_cons (.integer (by decide) (by decide)) (.members_cons (.array hitems)
    (.members_cons (.integer (by decide) (by decide)) (.members_cons .null .members_nil)))

/-- The text of the crowded value reads back as that value. -/
theorem parse_render_crowded : crowded.IsExact ∧ parse crowded.render = .ok crowded :=
  ⟨isExact_crowded, parse_render_of_isExact isExact_crowded⟩

end GraphCodec.Json
