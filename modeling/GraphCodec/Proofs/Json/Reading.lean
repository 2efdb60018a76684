import Mathlib
import GraphCodec.Proofs.Json.Nesting

/-!
# Readers of written values

A reader *reads* a JSON value as something if, given the draft of the value, it yields that and
fails only for lack of room (`Reads`): it never meets a member, a text or a missing part that it has
no use for.  The lemmas here say this of the readers for texts, lists, records, tagged objects and
objects with a tag and a content, given the same of the readers of their parts.
-/

namespace GraphCodec.Json

namespace Origin

/-- The levels that may still be opened; there is no bound on what has been settled. -/
def room : Origin → Room
  | text room => room
  | held => none

/-- The value of a reader that opens so many levels, or the error of its bound. -/
def within {α : Type} (o : Origin) (levels : Nat) (a : α) : Reading α :=
  o.room.within (.malformed .recursionLimit) levels a

variable {α β : Type} {o : Origin} {k l : Nat} {a : α} {b : β}

@[simp] theorem within_zero : o.within 0 a = .ok a := Room.within_zero

@[simp] theorem held_within : held.within k a = .ok a := Room.within_none

@[simp] theorem map_within (f : α → β) : (o.within k a).map f = o.within k (f a) :=
  Room.map_within f

/-- Readers one after another need room for the deeper of their drafts. -/
theorem within_bind {f : α → Reading β} (h : f a = o.within l b) :
    (o.within k a >>= f) = o.within (max k l) b :=
  Room.within_bind h

/-- What follows a reader may need no room of its own. -/
theorem within_bind_ok {f : α → Reading β} (h : f a = .ok b) :
    (o.within k a >>= f) = o.within k b :=
  Room.within_bind_ok h

/-- Opening an array or object takes one level. -/
theorem enter_bind {f : Origin → Reading α} (h : ∀ inner, f inner = inner.within k a) :
    (o.enter >>= f) = o.within (k + 1) a := by
  match o with
  | held => exact (h held).trans (held_within.trans held_within.symm)
  | text none => exact (h (text none)).trans (Room.within_none.trans Room.within_none.symm)
  | text (some 0) => rfl
  | text (some (n + 1)) =>
    -- What is left inside admits `k` levels just when what was left outside admits one more.
    have hadmits : Room.Admits (some n) k ↔ Room.Admits (some (n + 1)) (k + 1) := by
      simp [Room.Admits]
    exact (h (text (some n))).trans (if_congr hadmits rfl rfl)

/-- Settling the draft of a value takes room for its levels. -/
theorem settle_toDraft (o : Origin) (j : Json) : o.settle j.toDraft = o.within j.depth () := by
  cases o with
  | held => rw [held_within]; rfl
  | text room =>
    rw [settle, Json.settle_toDraft_within, Reading.ofSyntax, Room.mapError_within,
      Room.map_within]
    rfl

end Origin

/-- Whether a reader takes the draft of a value for `a` whenever it has room for its levels. -/
def Reads {α : Type} (reader : Origin → Draft → Reading α) (j : Json) (a : α) : Prop :=
  ∀ o : Origin, reader o j.toDraft = o.within j.depth a

namespace Reads

variable {α β : Type} {reader : Origin → Draft → Reading α}

/-- A text is read as itself. -/
theorem string (s : String) : Reads (fun _ => Draft.readString) (.string s) s := fun o => by
  rw [depth, Origin.within_zero]
  rfl

/-- What is made of the value of a reader reads the same JSON value. -/
theorem map {j : Json} {a : α} (h : Reads reader j a) (f : α → β) :
    Reads (fun o d => (reader o d).map f) j (f a) := fun o => by
  show (reader o j.toDraft).map f = _
  rw [h o, Origin.map_within]

/-- Elements that are read one by one. -/
private theorem items {write : β → Json} {reader : Origin → Draft → Reading β} {bs : List β}
    (h : ∀ b ∈ bs, Reads reader (write b) b) (o : Origin) :
    Draft.readItems (reader o) (toDrafts (bs.map write)) =
      o.within (depthItems (bs.map write)) bs := by
  induction bs with
  | nil =>
    rw [List.map_nil, depthItems, Origin.within_zero]
    rfl
  | cons b bs ih =>
    -- The first element and the rest each need room.
    rw [List.map_cons, toDrafts, Draft.readItems, depthItems, h b List.mem_cons_self o,
      ih fun b hb => h b (List.mem_cons_of_mem _ hb)]
    exact Origin.within_bind (Origin.map_within (b :: ·))

/-- A list is read if its elements are. -/
theorem list {write : β → Json} {reader : Origin → Draft → Reading β} {bs : List β}
    (h : ∀ b ∈ bs, Reads reader (write b) b) :
    Reads (fun o d => d.readList o reader) (.array (bs.map write)) bs := fun o => by
  show Draft.readList o reader (.array (toDrafts _) none) = _
  rw [Draft.readList, depth]
  refine Origin.enter_bind fun inner => ?_
  rw [items h]
  exact Origin.within_bind_ok rfl

/-- A list of texts is read. -/
theorem strings (names : List String) :
    Reads (fun o d => d.readStrings o) (.array (names.map .string)) names :=
  list fun s _ => string s

end Reads

/-! ### Variants -/

section Variants

variable {τ : Type} {variants : List (String × τ)} {name : String} {tag : τ}

/-- A variant is found under its name. -/
theorem variant_of_lookup (h : variants.lookup name = some tag) :
    Draft.variant variants name = .ok tag := by
  rw [Draft.variant, h]

/-- A text that is the name of a variant. -/
theorem Reads.variant (h : variants.lookup name = some tag) :
    Reads (fun o d => d.readVariant o variants) (.string name) tag := fun o => by
  rw [depth, Origin.within_zero]
  exact variant_of_lookup h

end Variants

/-! ### Records -/

/-- A slot that is still empty is filled with what is read. -/
theorem fill_none {α : Type} (name : String) {o : Origin} {k : Nat} {a : α} :
    fill none name (o.within k a) = o.within k (some a) :=
  Origin.map_within some

namespace RecordForm

variable {σ α : Type} {form : RecordForm σ α} {s t u : σ} {name : String} {j : Json}
  {members others : List (String × Json)}

/-- Whether the members take a record from one state to another whenever there is room for their
levels. -/
def Takes (form : RecordForm σ α) (s : σ) (members : List (String × Json)) (t : σ) : Prop :=
  ∀ o : Origin, form.readMembers o s (toDraftMembers members) none =
    o.within (depthMembers members) t

/-- No members leave what is known as it is. -/
theorem Takes.nil : form.Takes s [] s := fun o => by
  rw [depthMembers, Origin.within_zero]
  rfl

/-- One member, which is known. -/
theorem Takes.member (hname : form.fields.contains name = true)
    (hmember : ∀ o, form.member o s name j.toDraft = o.within j.depth t) :
    form.Takes s [(name, j)] t := fun o => by
  -- The name of the member is among the known ones.
  have hread : form.readMembers o s (toDraftMembers [(name, j)]) none =
      form.member o s name j.toDraft >>= .ok := by
    show (if form.fields.contains name = true then _ else _) = _
    rw [if_pos hname]
    rfl
  rw [hread, hmember, depthMembers, depthMembers, Nat.max_zero]
  exact Origin.within_bind_ok rfl

/-- One member that is neither an array nor an object. -/
theorem Takes.leaf (hname : form.fields.contains name = true) (hdepth : j.depth = 0)
    (hmember : ∀ o, form.member o s name j.toDraft = .ok t) : form.Takes s [(name, j)] t :=
  .member hname fun o => by rw [hmember, hdepth, Origin.within_zero]

/-- Members are read one after the other. -/
private theorem readMembers_append (o : Origin) (ms ns : List Draft.Member) (stop : Option Fault) :
    form.readMembers o s (ms ++ ns) stop =
      form.readMembers o s ms none >>= fun t => form.readMembers o t ns stop := by
  -- The state is general: it is whatever the members before have made of it.
  induction ms generalizing s with
  | nil => rfl
  | cons m ms ih =>
    obtain ⟨key, d⟩ := m
    rw [List.cons_append, readMembers, readMembers]
    simp only [ih, bind_assoc]
    congr 1
    funext name
    split
    · rw [bind_assoc]
    · split
      · rfl
      · rw [bind_assoc]

/-- The drafts of members behind each other are those of both. -/
private theorem toDraftMembers_append (ms ns : List (String × Json)) :
    toDraftMembers (ms ++ ns) = toDraftMembers ms ++ toDraftMembers ns := by
  induction ms with
  | nil => rfl
  | cons m ms ih => rw [List.cons_append, toDraftMembers, ih, toDraftMembers, List.cons_append]

/-- Members behind each other are as deep as the deeper ones. -/
private theorem depthMembers_append (ms ns : List (String × Json)) :
    depthMembers (ms ++ ns) = max (depthMembers ms) (depthMembers ns) := by
  induction ms with
  | nil => rw [List.nil_append, depthMembers, Nat.zero_max]
  | cons m ms ih => rw [List.cons_append, depthMembers, ih, depthMembers, Nat.max_assoc]

/-- Members behind each other are taken one after the other. -/
theorem Takes.append (h : form.Takes s members t) (h' : form.Takes t others u) :
    form.Takes s (members ++ others) u := fun o => by
  rw [toDraftMembers_append, readMembers_append, h o, depthMembers_append]
  exact Origin.within_bind (h' o)

/-- Members that make up a record. -/
theorem Takes.ofMembers {a : α} (h : form.Takes form.empty members s)
    (hfinish : form.finish s .missingField = .ok a) (o : Origin) :
    form.ofMembers o (toDraftMembers members) none = o.within (depthMembers members) a := by
  rw [RecordForm.ofMembers, h o]
  exact Origin.within_bind_ok hfinish

/-- An object of the members that make up a record. -/
theorem Takes.reads {a : α} (h : form.Takes form.empty members s)
    (hfinish : form.finish s .missingField = .ok a) : Reads form.read (.object members) a :=
  fun o => by
    rw [toDraft, read, depth]
    exact Origin.enter_bind (h.ofMembers hfinish)

end RecordForm

/-! ### Tagged objects -/

section Tagged

variable {τ : Type} {tagName : String} {variants : List (String × τ)} {o : Origin}

/-- Behind the tag the members of an object are settled and kept. -/
private theorem takeTag_some (tag : Option τ) {members : List (String × Json)}
    (h : tagName ∉ members.map (·.1)) :
    takeTag o tagName variants tag (toDraftMembers members) none =
      o.within (depthMembers members) (tag, toDraftMembers members) := by
  induction members with
  | nil =>
    rw [depthMembers, Origin.within_zero]
    rfl
  | cons m rest ih =>
    obtain ⟨name, j⟩ := m
    simp only [List.map_cons, List.mem_cons, not_or] at h
    -- The name is not the tag again, so the member is settled and kept.
    have htake : takeTag o tagName variants tag (toDraftMembers ((name, j) :: rest)) none =
        o.settle j.toDraft >>= fun _ =>
          takeTag o tagName variants tag (toDraftMembers rest) none >>= fun r =>
            .ok (r.1, (.ok name, j.toDraft) :: r.2) := by
      show (if name = tagName then _ else _) = _
      rw [if_neg (Ne.symm h.1)]
      rfl
    rw [htake, o.settle_toDraft, ih h.2, depthMembers]
    exact Origin.within_bind (Origin.within_bind_ok rfl)

/-- An object whose first member is its tag. -/
theorem readTagged_object {expected name : String} {tag : τ} {members : List (String × Json)}
    (htag : variants.lookup name = some tag) (h : tagName ∉ members.map (·.1)) :
    readTagged o expected tagName variants
        (toDraft (.object ((tagName, .string name) :: members))) =
      o.within (depth (.object ((tagName, .string name) :: members)))
        (tag, .object (toDraftMembers members)) := by
  rw [toDraft, readTagged, depth, depthMembers, depth, Nat.zero_max]
  -- The first member is the tag.
  have htake : ∀ inner : Origin,
      takeTag inner tagName variants none
        (toDraftMembers ((tagName, .string name) :: members)) none =
        inner.within (depthMembers members) (some tag, toDraftMembers members) := by
    intro inner
    rw [← takeTag_some (some tag) h]
    show (if tagName = tagName then _ else _) = _
    rw [if_pos rfl]
    rw [toDraft, Draft.readIdentifier, variant_of_lookup htag]
    rfl
  refine Origin.enter_bind fun inner => ?_
  rw [htake]
  exact Origin.within_bind_ok rfl

end Tagged

/-! ### Objects with a tag and a content -/

namespace AdjacentForm

variable {τ : Type} {form : AdjacentForm τ} {o : Origin} {name : String} {tag : τ}

/-- The tag alone. -/
theorem locate_tag (h : form.variants.lookup name = some tag) :
    form.locate o (toDraftMembers [(form.tagName, .string name)]) none = .ok ⟨tag, none, []⟩ := by
  show (if form.tagName = form.tagName then _ else _) = _
  rw [if_pos rfl, toDraft, Draft.readVariant, variant_of_lookup h]
  rfl

/-- The tag, and behind it the content. -/
theorem locate_content {j : Json} (h : form.variants.lookup name = some tag)
    (hne : form.contentName ≠ form.tagName) :
    form.locate o (toDraftMembers [(form.tagName, .string name), (form.contentName, j)]) none =
      .ok ⟨tag, some (j.toDraft, o), []⟩ := by
  -- The first member is the tag.
  show (if form.tagName = form.tagName then _ else _) = _
  rw [if_pos rfl, toDraft, Draft.readVariant, variant_of_lookup h]
  -- The second one is the content.
  show (if form.contentName = form.tagName then _ else _) = _
  rw [if_neg hne, if_pos rfl]
  rfl

end AdjacentForm

end GraphCodec.Json
