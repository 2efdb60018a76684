import GraphCodec.Codec.Decode
import GraphCodec.Proofs.Codec.Linking
import GraphCodec.Proofs.Codec.Text
import Mathlib.Data.Finset.Card

/-!
# Linking again

A table keeps the codecs of classes apart from those of enums.  Among plans of one sort the last one
of a name replaces those before it, but the codec of a class hides the codec of an enum that has the
same name, whichever of them was linked first.  So the codec that a table uses for a name is that of
the last class linked under it, and only without one that of the last plan; and the size of a table
counts a name twice that classes and enums were linked under (`CodecTable.codec_of_links`).
-/

namespace GraphCodec

/-! ### Lists with keys -/

section Replace

variable {α : Type} (key : α → String)

/-- After many replacements the last one with a key is found. -/
theorem find?_foldl_replace (l as : List α) (name : String) :
    (as.foldl (replace key) l).find? (key · == name) =
      (as.reverse.find? (key · == name)).or (l.find? (key · == name)) := by
  induction as generalizing l with
  | nil => rfl
  | cons a as ih =>
    -- The element put in last comes in front of all others of its name.
    rw [List.foldl_cons, ih, find?_replace, List.reverse_cons, List.find?_append, Option.or_assoc]
    by_cases h : key a = name
    · rw [if_pos h, List.find?_cons_of_pos (by simpa using h), Option.some_or]
    · rw [if_neg h, List.find?_cons_of_neg (by simpa using h), List.find?_nil, Option.none_or]

/-- Putting elements in place keeps the names different. -/
private theorem nodup_foldl_replace {l : List α} (as : List α) (h : (l.map key).Nodup) :
    ((as.foldl (replace key) l).map key).Nodup := by
  induction as generalizing l with
  | nil => exact h
  | cons a as ih =>
    refine ih (List.nodup_cons.2 ⟨?_, h.sublist (List.filter_sublist.map key)⟩)
    simp [List.mem_filter]

/-- The names after putting elements in place are those before and those put in. -/
private theorem toFinset_foldl_replace (l as : List α) :
    ((as.foldl (replace key) l).map key).toFinset =
      (as.map key).toFinset ∪ (l.map key).toFinset := by
  induction as generalizing l with
  | nil => simp
  | cons a as ih =>
    rw [List.foldl_cons, ih]
    ext name
    -- The name is that of the new element.
    by_cases h : name = key a
    · simp [replace, h]
    -- Another name is only taken out where it is put in again.
    · simp only [replace, List.map_cons, List.toFinset_cons, Finset.mem_union, Finset.mem_insert,
        List.mem_toFinset, List.mem_map, List.mem_filter]
      grind

/-- Of many replacements as many are left as there are different keys. -/
private theorem length_foldl_replace (as : List α) :
    (as.foldl (replace key) []).length = (as.map key).toFinset.card := by
  have hnodup := nodup_foldl_replace key as (l := []) List.nodup_nil
  have hkeys := toFinset_foldl_replace key [] as
  rw [List.map_nil, List.toFinset_nil, Finset.union_empty] at hkeys
  rw [← hkeys, List.toFinset_card_of_nodup hnodup, List.length_map]

end Replace

/-! ### The last plan of a name -/

namespace CodecPlan

variable {plans : List CodecPlan} {name : String}

/-- The classes of some plans. -/
def classPlans (plans : List CodecPlan) : List ObjectPlan := plans.filterMap CodecPlan.object?

/-- The enums of some plans. -/
def enumPlans (plans : List CodecPlan) : List EnumPlan := plans.filterMap CodecPlan.enum?

/-- The last plan of a name. -/
def last? (plans : List CodecPlan) (name : String) : Option CodecPlan :=
  plans.reverse.find? (·.typeName == name)

/-- The plan whose codec is used for a name: the last class of the name, and without one the last
plan. -/
def used? (plans : List CodecPlan) (name : String) : Option CodecPlan :=
  (((classPlans plans).reverse.find? (·.typeName == name)).map .object).or (last? plans name)

/-- A class that is the first plan of a name is the first class of the name. -/
private theorem find?_classPlans {p : ObjectPlan}
    (h : plans.find? (·.typeName == name) = some (.object p)) :
    (classPlans plans).find? (·.typeName == name) = some p := by
  induction plans with
  | nil => cases h
  | cons plan plans ih =>
    -- The plan in front has the name, or the search goes on behind it.
    by_cases hname : plan.typeName = name
    · rw [List.find?_cons_of_pos (by simpa [typeName] using hname), Option.some.injEq] at h
      subst h
      exact List.find?_cons_of_pos (by simpa [typeName] using hname)
    · rw [List.find?_cons_of_neg (by simpa [typeName] using hname)] at h
      cases plan with
      | object q =>
        show (q :: classPlans plans).find? (·.typeName == name) = some p
        rw [List.find?_cons_of_neg (by simpa [typeName] using hname), ih h]
      | enum q => exact ih h

/-- Where no class has a name, the first plan of the name is the first enum. -/
private theorem find?_enumPlans (h : (classPlans plans).find? (·.typeName == name) = none) :
    plans.find? (·.typeName == name) =
      ((enumPlans plans).find? (·.typeName == name)).map .enum := by
  induction plans with
  | nil => rfl
  | cons plan plans ih =>
    -- A class does not have the name, so it is passed over on both sides.
    cases plan with
    | object p =>
      have h : (p :: classPlans plans).find? (·.typeName == name) = none := h
      have hname : ¬(p.typeName == name) := List.find?_eq_none.1 h p List.mem_cons_self
      rw [List.find?_cons_of_neg (by exact hname)] at h
      rw [List.find?_cons_of_neg (by exact hname), ih h]
      rfl
    -- An enum stands in both lists.
    | enum p =>
      show _ = ((p :: enumPlans plans).find? (·.typeName == name)).map CodecPlan.enum
      by_cases hname : p.typeName = name
      · rw [List.find?_cons_of_pos (by simpa [typeName] using hname),
          List.find?_cons_of_pos (by simpa [typeName] using hname), Option.map_some]
      · rw [List.find?_cons_of_neg (by simpa [typeName] using hname),
          List.find?_cons_of_neg (by simpa [typeName] using hname), ih h]

/-- The classes of plans in reverse are the classes in reverse. -/
private theorem classPlans_reverse (plans : List CodecPlan) :
    classPlans plans.reverse = (classPlans plans).reverse :=
  List.filterMap_reverse

/-- The enums of plans in reverse are the enums in reverse. -/
private theorem enumPlans_reverse (plans : List CodecPlan) :
    enumPlans plans.reverse = (enumPlans plans).reverse :=
  List.filterMap_reverse

/-- The last class of a name goes before the last enum. -/
private theorem used?_eq (plans : List CodecPlan) (name : String) :
    used? plans name =
      (((classPlans plans).reverse.find? (·.typeName == name)).map .object).or
        (((enumPlans plans).reverse.find? (·.typeName == name)).map .enum) := by
  unfold used? last?
  cases h : (classPlans plans).reverse.find? (·.typeName == name) with
  | some p => rfl
  | none => rw [find?_enumPlans (by rw [classPlans_reverse, h]), enumPlans_reverse]

/-- The codec of the last plan of a name is used, unless that plan is an enum and a class has the
name too. -/
private theorem used?_eq_last?_iff (plans : List CodecPlan) (name : String) :
    used? plans name = last? plans name ↔
      ¬∃ e p, last? plans name = some (.enum e) ∧ .object p ∈ plans ∧ p.typeName = name := by
  cases h : (classPlans plans).reverse.find? (·.typeName == name) with
  | none =>
    -- No class has the name.
    refine iff_of_true (by rw [used?, h]; rfl) ?_
    rintro ⟨e, p, -, hp, hname⟩
    refine List.find?_eq_none.1 h p ?_ (by simpa [typeName] using hname)
    exact List.mem_reverse.2 (List.mem_filterMap.2 ⟨_, hp, rfl⟩)
  -- A class has the name, and it is used; it stands somewhere among the plans.
  | some p =>
    have hused : used? plans name = some (.object p) := by rw [used?, h]; rfl
    have hname : p.typeName = name := by simpa using List.find?_some h
    obtain ⟨plan, hplan, heq⟩ :=
      List.mem_filterMap.1 (List.mem_reverse.1 (List.mem_of_find?_eq_some h))
    obtain rfl : plan = .object p := by
      cases plan with
      | object q => cases heq; rfl
      | enum q => cases heq
    -- Since the class is one of the plans, there is a last plan of the name.
    cases hlast : last? plans name with
    | none =>
      exact absurd hname
        (by simpa [typeName] using List.find?_eq_none.1 hlast _ (List.mem_reverse.2 hplan))
    | some last =>
      rw [hused, Option.some.injEq]
      cases last with
      -- If that is a class, it is the one that is used.
      | object q =>
        have hq := find?_classPlans hlast
        rw [classPlans_reverse, h, Option.some.injEq] at hq
        exact iff_of_true (by rw [hq]) (by rintro ⟨e, _, heq, -⟩; cases heq)
      -- If it is an enum, it is hidden by the class.
      | enum e => exact iff_of_false nofun fun hno => hno ⟨e, p, rfl, hplan, hname⟩

end CodecPlan

namespace CodecTable

open CodecPlan (classPlans enumPlans last? used?)

variable {t : CodecTable} {name tag : String} {plans : List CodecPlan}

/-! ### The codec of a plan -/

/-- Writes a value through the codec of a plan, if there is one for a name. -/
def encodeThrough (t : CodecTable) (name : String) : Option CodecPlan → Value →
    Except CodecError Json
  | some (.object p), v => t.encodeObject p v true
  | some (.enum p), v => p.encode v
  | none, _ => .error (.unknownCodec name)

/-- Reads a JSON value through the codec of a plan, if there is one for a name. -/
def decodeThrough (t : CodecTable) (name : String) : Option CodecPlan → Json →
    Except CodecError Value
  | some (.object p), j => t.decodeObject p j true
  | some (.enum p), j => p.decode j
  | none, _ => .error (.unknownCodec name)

/-- Whether a table uses the codec of a plan for a name, by the name itself and by references. -/
structure Uses (t : CodecTable) (name : String) (plan? : Option CodecPlan) : Prop where
  encodeNamed : ∀ v, t.encodeNamed name v = t.encodeThrough name plan? v
  writeNamed : ∀ v, t.writeNamed name v = (t.encodeThrough name plan? v).map Json.render
  encodeNonNull : ∀ v, t.encodeNonNull v (.generated name) = t.encodeThrough name plan? v
  decodeNamed : ∀ j, t.decodeNamed name j = t.decodeThrough name plan? j
  decodeJson : ∀ j, t.decodeJson (.generated name) j = t.decodeThrough name plan? j

/-- The plan that a table finds under a name, a class before an enum. -/
def plan? (t : CodecTable) (name : String) : Option CodecPlan :=
  ((t.object? name).map .object).or ((t.enum? name).map .enum)

/-- Encoding through a name is encoding through the codec that the table uses for it. -/
private theorem encodeNamed_eq (t : CodecTable) (name : String) (v : Value) :
    t.encodeNamed name v = t.encodeThrough name (t.plan? name) v := by
  rw [encodeNamed, encodeNonNull, plan?]
  cases t.object? name with
  | some p => cases v <;> rfl
  | none => cases t.enum? name <;> rfl

/-- Decoding through a name is decoding through the codec that the table uses for it. -/
private theorem decodeNamed_eq (t : CodecTable) (name : String) (j : Json) :
    t.decodeNamed name j = t.decodeThrough name (t.plan? name) j := by
  rw [decodeNamed, decodeJson, plan?]
  cases t.object? name with
  | some p => cases j <;> rfl
  | none => cases t.enum? name <;> rfl

/-- All that a table does with a name goes through the codec that it uses for it. -/
private theorem uses_plan? (t : CodecTable) (name : String) : t.Uses name (t.plan? name) where
  encodeNamed := t.encodeNamed_eq name
  writeNamed v := by rw [writeNamed_eq, encodeNamed_eq]
  encodeNonNull := t.encodeNamed_eq name
  decodeNamed := t.decodeNamed_eq name
  decodeJson := t.decodeNamed_eq name

/-! ### Tables after links -/

/-- The table after plans have been linked time after time. -/
def linkEach (tag : String) (calls : List (List CodecPlan)) : CodecTable :=
  calls.foldl link (empty tag)

/-- Linking time after time is linking all plans at once. -/
private theorem linkEach_eq (tag : String) (calls : List (List CodecPlan)) :
    linkEach tag calls = ofPlans tag calls.flatten :=
  List.foldl_flatten.symm

/-- Linking plans puts the classes among them in place one by one. -/
private theorem objects_link (t : CodecTable) (plans : List CodecPlan) :
    (t.link plans).objects = (classPlans plans).foldl (replace ObjectPlan.typeName) t.objects := by
  induction plans generalizing t with
  | nil => rfl
  | cons plan plans ih =>
    rw [link, List.foldl_cons, ← link, ih]
    cases plan <;> rfl

/-- Linking plans puts the enums among them in place one by one. -/
private theorem enums_link (t : CodecTable) (plans : List CodecPlan) :
    (t.link plans).enums = (enumPlans plans).foldl (replace EnumPlan.typeName) t.enums := by
  induction plans generalizing t with
  | nil => rfl
  | cons plan plans ih =>
    rw [link, List.foldl_cons, ← link, ih]
    cases plan <;> rfl

/-- A linked table finds the last class of a name. -/
private theorem object?_ofPlans_eq (tag : String) (plans : List CodecPlan) (name : String) :
    (ofPlans tag plans).object? name = (classPlans plans).reverse.find? (·.typeName == name) := by
  rw [object?, ofPlans, objects_link, find?_foldl_replace]
  exact Option.or_none

/-- A linked table finds the last enum of a name. -/
private theorem enum?_ofPlans_eq (tag : String) (plans : List CodecPlan) (name : String) :
    (ofPlans tag plans).enum? name = (enumPlans plans).reverse.find? (·.typeName == name) := by
  rw [enum?, ofPlans, enums_link, find?_foldl_replace]
  exact Option.or_none

/-- The codec that a linked table uses is that of the plans. -/
private theorem plan?_ofPlans (tag : String) (plans : List CodecPlan) (name : String) :
    (ofPlans tag plans).plan? name = used? plans name := by
  rw [plan?, object?_ofPlans_eq, enum?_ofPlans_eq, CodecPlan.used?_eq]

/-- The size of a table counts the names of classes and those of enums. -/
private theorem size_ofPlans (tag : String) (plans : List CodecPlan) :
    (ofPlans tag plans).size =
      ((classPlans plans).map (·.typeName)).toFinset.card +
        ((enumPlans plans).map (·.typeName)).toFinset.card := by
  rw [size, ofPlans, objects_link, enums_link]
  exact congrArg₂ (· + ·) (length_foldl_replace ObjectPlan.typeName _)
    (length_foldl_replace EnumPlan.typeName _)

/-- Every name of a plan is that of a class or of an enum. -/
private theorem typeNames_eq_union (plans : List CodecPlan) :
    (plans.map (·.typeName)).toFinset =
      ((classPlans plans).map (·.typeName)).toFinset ∪
        ((enumPlans plans).map (·.typeName)).toFinset := by
  induction plans with
  | nil => rfl
  | cons plan plans ih =>
    rw [List.map_cons, List.toFinset_cons, ih]
    cases plan with
    | object p =>
      show _ = ((p :: classPlans plans).map (·.typeName)).toFinset ∪ _
      rw [List.map_cons, List.toFinset_cons, Finset.insert_union]
      rfl
    | enum p =>
      show _ = _ ∪ ((p :: enumPlans plans).map (·.typeName)).toFinset
      rw [List.map_cons, List.toFinset_cons, Finset.union_insert]
      rfl

/-- Whatever has been linked, the codec of a name is that of the last class linked under it, and if
there is none that of the last enum.  So it is the codec of the last plan of the name, unless that
is an enum and a class has the name too.  The size of the table is the number of names that plans
were linked under, where a name counts twice that both classes and enums were linked under. -/
theorem codec_of_links (tag : String) (calls : List (List CodecPlan)) :
    (∀ name, (linkEach tag calls).Uses name (used? calls.flatten name)) ∧
    (∀ name, used? calls.flatten name = last? calls.flatten name ↔
      ¬∃ e p, last? calls.flatten name = some (.enum e) ∧
        .object p ∈ calls.flatten ∧ p.typeName = name) ∧
    (linkEach tag calls).size =
      (calls.flatten.map (·.typeName)).toFinset.card +
        (((classPlans calls.flatten).map (·.typeName)).toFinset ∩
          ((enumPlans calls.flatten).map (·.typeName)).toFinset).card := by
  rw [linkEach_eq]
  refine ⟨fun name => ?_, CodecPlan.used?_eq_last?_iff _, ?_⟩
  -- What the table does with a name is what the codec of the name does.
  · rw [← plan?_ofPlans tag]
    exact uses_plan? _ name
  -- Classes and enums are counted apart, so a name of both is counted twice.
  · rw [typeNames_eq_union, Finset.card_union_add_card_inter, size_ofPlans]

/-- A color that is first linked as a class and then as an enum. -/
def recolored : List (List CodecPlan) :=
  [[.object ⟨"Color", false, none, [], []⟩], [.enum ⟨"Color", ["RED"]⟩]]

/-- The enum does not replace the class: its codec is not used, and the one name counts twice. -/
theorem not_last_linked :
    ¬(linkEach defaultTag recolored).Uses "Color" (last? recolored.flatten "Color") ∧
      (linkEach defaultTag recolored).size ≠
        (recolored.flatten.map (·.typeName)).toFinset.card := by
  refine ⟨fun h => ?_, by decide +kernel⟩
  -- Reading through the hidden enum would accept what the class refuses.
  have hread := (decodeNamed_eq _ _ _).symm.trans (h.decodeNamed (.string "RED"))
  have hclass : (linkEach defaultTag recolored).plan? "Color" =
      some (.object ⟨"Color", false, none, [], []⟩) := by decide +kernel
  have henum : last? recolored.flatten "Color" = some (.enum ⟨"Color", ["RED"]⟩) := by
    decide +kernel
  rw [hclass, henum] at hread
  simp [decodeThrough, decodeObject, CodecError.unexpected, EnumPlan.decode] at hread

end CodecTable

end GraphCodec
