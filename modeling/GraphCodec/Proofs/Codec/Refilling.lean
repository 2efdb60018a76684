import GraphCodec.Proofs.Codec.DecodingCalls
import GraphCodec.Proofs.Codec.Objects
import GraphCodec.Proofs.Generation.Ancestry

/-!
# Reading into an instance

The codec of a class reads the members of an object into an instance that is there already.  It has
the codec of its superclass do so first, and then sets its own fields one after another
(`CodecTable.Reads`).  Nothing that the instance holds is looked at on the way, so a reading that
fails does so for every instance, with the same error (`CodecTable.Reads.error_iff`).  One that does
not fail sets the fields along the chain of superclasses and nothing else
(`CodecTable.Overwrites`): each step does so for one field, and what two readings in a row set is
what is set for the fields of both (`CodecTable.Overwrites.append`).  A name can be that of several
fields along the chain; what it holds in the end comes from the last of them.
-/

namespace GraphCodec

/-! ### Instances -/

/-- An instance of a class: its type, and those of its fields that are not null. -/
structure Instance where
  typeName : String
  fields : List (String × Value)
  ascending : Value.Ascending fields

namespace Instance

/-- What a field holds; nothing if it is null. -/
def field? (d : Instance) (name : String) : Option Value := Value.getField? d.fields name

/-- Sets a field; null clears it. -/
def set (d : Instance) (name : String) (v : Value) : Instance where
  typeName := d.typeName
  fields := Value.setField d.fields name v
  ascending := d.ascending.setField name v

/-- A field that is set is found under its name, and the others as before. -/
private theorem field?_set (d : Instance) (name : String) (v : Value) (other : String) :
    (d.set name v).field? other = if other = name then v.present? else d.field? other :=
  Value.getField?_setField

end Instance

namespace CodecTable

variable {t : CodecTable} {p q : ObjectPlan} {f : FieldPlan} {fs gs : List FieldPlan}
  {members : List (String × Json)} {name : String} {v : Value} {e : CodecError}
  {d d' d'' d₁ d₂ : Instance} {r r₁ r₂ : Except CodecError Instance}

/-! ### Reading -/

/-- Reads the fields of one class into an instance, one after another. -/
def readOwn (t : CodecTable) (members : List (String × Json)) :
    List FieldPlan → Instance → Except CodecError Instance
  | [], d => .ok d
  | f :: fs, d => do
    let v ← t.memberValue members f
    t.readOwn members fs (d.set f.name (fieldValue f v))

/-- `t.Reads members p d r` says that reading members into the instance `d` through the codec of a
class comes to an end with `r`.  The codec of the superclass is looked up and reads first. -/
inductive Reads (t : CodecTable) (members : List (String × Json)) :
    ObjectPlan → Instance → Except CodecError Instance → Prop where
  | top {p : ObjectPlan} {d : Instance} (hsuper : p.superclass = none) :
    Reads t members p d (t.readOwn members p.fields d)
  | lost {p : ObjectPlan} {d : Instance} {above : String} (hsuper : p.superclass = some above)
    (hnone : t.object? above = none) : Reads t members p d (.error (.unknownCodec above))
  | up {p q : ObjectPlan} {d : Instance} {r : Except CodecError Instance} {above : String}
    (hsuper : p.superclass = some above) (hq : t.object? above = some q)
    (hr : Reads t members q d r) : Reads t members p d (r >>= t.readOwn members p.fields)

/-- A reading has one result. -/
private theorem Reads.unique (h₁ : t.Reads members p d r₁) (h₂ : t.Reads members p d r₂) :
    r₁ = r₂ := by
  -- The topmost class.
  induction h₁ generalizing r₂ with
  | top hsuper => cases h₂ <;> simp_all
  -- The superclass has no codec.
  | lost hsuper hnone => cases h₂ <;> simp_all
  -- The reading goes on in the superclass, which is the same for both.
  | up hsuper hq _ ih =>
    cases h₂ with
    | top hsuper' => simp_all
    | lost hsuper' hnone => simp_all
    | up hsuper' hq' hr' =>
      rw [hsuper, Option.some.injEq] at hsuper'
      rw [← hsuper', hq, Option.some.injEq] at hq'
      subst hq'
      rw [ih hr']

/-- The fields of a class are set to what is read from their members. -/
private theorem fields_readOwn (fs : List FieldPlan) (d : Instance) :
    (t.readOwn members fs d).map (·.fields) =
      (fs.mapM (t.readField members)).map (assign d.fields) := by
  induction fs generalizing d with
  | nil => rfl
  | cons f fs ih =>
    rw [readOwn, mapM_readField_cons]
    -- The value of the first field is read from the same member.
    cases t.memberValue members f with
    | error e => rfl
    | ok v => exact ih (d.set f.name (fieldValue f v))

/-- Reading an object into an instance is reading its fields along the whole chain. -/
private theorem readInto_eq (p : ObjectPlan) (members : List (String × Json))
    (fields : List (String × Value)) :
    t.readInto p members fields = t.readWithin t.objects.length p members fields := by
  rw [readInto, readWithin, chainFields, chain]
  cases t.chainWithin t.objects.length p with
  | error e => rfl
  | ok plans =>
    show (t.readFields members (plans.flatMap (·.fields)) >>= _) = _
    rw [readFields_eq]
    rfl

/-- Along the superclasses of a class there are fewer of them at every step, so a reading comes to
an end. -/
private theorem exists_reads (ha : t.Acyclic) {steps : Nat} (hp : t.object? p.typeName = some p)
    (hsteps : t.height p.typeName < steps) (members : List (String × Json)) (d : Instance) :
    ∃ r, t.Reads members p d r ∧ r.map (·.fields) = t.readWithin steps p members d.fields := by
  -- By induction on the steps, which stay ahead of the height of the class.
  induction steps generalizing p with
  | zero => omega
  | succ steps ih =>
    -- Without a superclass only the own fields are read.
    cases hsuper : p.superclass with
    | none =>
      refine ⟨_, .top hsuper, ?_⟩
      rw [readWithin_top _ _ hsuper, fields_readOwn]
    | some above =>
      rw [readWithin_up _ hsuper]
      -- The codec of the superclass may be missing, and then nothing is read.
      cases hq : t.object? above with
      | none =>
        refine ⟨_, .lost hsuper hq, ?_⟩
        rw [object, hq]
        rfl
      -- The superclass has fewer classes above it, so its reading comes to an end.
      | some q =>
        have hname := typeName_of_object? hq
        have hlt := ha.height_lt ⟨p, hp, hsuper⟩ hq
        obtain ⟨r, hr, hfields⟩ := ih (hname ▸ hq) (by rw [hname]; omega)
        refine ⟨_, .up hsuper hq hr, ?_⟩
        rw [object_eq_ok.2 hq]
        show _ = (t.readWithin steps q members d.fields >>= _)
        rw [← hfields]
        cases r with
        | error e => rfl
        | ok d' => exact fields_readOwn p.fields d'

/-! ### Errors -/

/-- Whether and how the fields of a class cannot be read does not depend on the instance. -/
private theorem readOwn_eq_error_iff (d₁ d₂ : Instance) :
    t.readOwn members fs d₁ = .error e ↔ t.readOwn members fs d₂ = .error e := by
  induction fs generalizing d₁ d₂ with
  | nil => simp [readOwn]
  | cons f fs ih =>
    rw [readOwn, readOwn]
    -- The member is read before anything is set.
    cases t.memberValue members f with
    | error e => exact Iff.rfl
    | ok v => exact ih _ _

/-- Whether and how a reading fails does not depend on the instance. -/
theorem Reads.error_iff (h₁ : t.Reads members p d₁ r₁) (h₂ : t.Reads members p d₂ r₂) :
    r₁ = .error e ↔ r₂ = .error e := by
  -- Both readings go up the same chain, and back through the fields of the same classes.
  induction h₁ generalizing r₂ e with
  | top hsuper =>
    cases h₂ with
    | top => exact readOwn_eq_error_iff _ _
    | lost hsuper' | up hsuper' => simp_all
  | lost hsuper hnone => cases h₂ <;> simp_all
  | @up p q d r above hsuper hq hr ih =>
    cases h₂ with
    | top hsuper' => simp_all
    | lost hsuper' hnone => simp_all
    | @up _ q' _ r' _ hsuper' hq' hr' =>
      rw [hsuper, Option.some.injEq] at hsuper'
      rw [← hsuper', hq, Option.some.injEq] at hq'
      -- The readings of the superclass fail alike, so either both of them do or neither.
      subst hq'
      have herror : ∀ e, r = .error e ↔ r' = .error e := fun e => ih hr'
      cases r with
      | error e' => rw [(herror e').1 rfl]
      | ok d =>
        cases r' with
        | error e' => cases (herror e').2 rfl
        | ok d' => exact readOwn_eq_error_iff _ _

/-! ### What is set -/

/-- The last of some fields that have a name. -/
def lastField? (fs : List FieldPlan) (name : String) : Option FieldPlan :=
  fs.reverse.find? (·.name == name)

/-- The last field of a name is looked for in the back part first. -/
private theorem lastField?_append (fs gs : List FieldPlan) (name : String) :
    lastField? (fs ++ gs) name = (lastField? gs name).or (lastField? fs name) := by
  rw [lastField?, List.reverse_append, List.find?_append]
  rfl

/-- A single field is the last of its name. -/
private theorem lastField?_singleton (f : FieldPlan) (name : String) :
    lastField? [f] name = if f.name = name then some f else none := by
  by_cases h : f.name = name <;> simp [lastField?, h]

private theorem lastField?_eq_none : lastField? fs name = none ↔ ∀ f ∈ fs, f.name ≠ name := by
  simp [lastField?]

/-- What a field holds once its member has been read, whatever it held before. -/
def held (t : CodecTable) (members : List (String × Json)) (f : FieldPlan) :
    Except CodecError (Option Value) :=
  (t.memberValue members f).map fun v => (fieldValue f v).present?

/-- Whether an instance becomes another one by setting some fields to what is read from their
members: all of them are read, the type and all other fields are kept, and a name that is that of
some of the fields holds what is read for the last of them. -/
structure Overwrites (t : CodecTable) (members : List (String × Json)) (fs : List FieldPlan)
    (d d' : Instance) : Prop where
  typeName_eq : d'.typeName = d.typeName
  field?_eq : ∀ name, lastField? fs name = none → d'.field? name = d.field? name
  held_eq : ∀ name f, lastField? fs name = some f → t.held members f = .ok (d'.field? name)
  exists_content : ∀ f ∈ fs, ∃ content, t.held members f = .ok content

namespace Overwrites

private theorem nil (d : Instance) : t.Overwrites members [] d d :=
  ⟨rfl, fun _ _ => rfl, nofun, nofun⟩

/-- Setting a field changes what is found under its name only. -/
private theorem set (hv : t.memberValue members f = .ok v) (d : Instance) :
    t.Overwrites members [f] d (d.set f.name (fieldValue f v)) where
  typeName_eq := rfl
  -- No other name is touched.
  field?_eq := by
    intro name h
    rw [lastField?_singleton, ite_eq_right_iff] at h
    rw [Instance.field?_set, if_neg fun heq => nomatch h heq.symm]
  -- Under the name of the field there is what was read for it.
  held_eq := by
    intro name g h
    rw [lastField?_singleton, Option.ite_none_right_eq_some, Option.some.injEq] at h
    obtain ⟨rfl, rfl⟩ := h
    rw [Instance.field?_set, if_pos rfl, held, hv]
    rfl
  exists_content := by
    intro g hg
    rw [List.mem_singleton.1 hg, held, hv]
    exact ⟨_, rfl⟩

/-- What is set later covers what was set before. -/
theorem append (h : t.Overwrites members fs d d') (h' : t.Overwrites members gs d' d'') :
    t.Overwrites members (fs ++ gs) d d'' where
  typeName_eq := h'.typeName_eq.trans h.typeName_eq
  field?_eq := by
    intro name hnone
    rw [lastField?_append, Option.or_eq_none_iff] at hnone
    rw [h'.field?_eq name hnone.1, h.field?_eq name hnone.2]
  held_eq := by
    intro name f hf
    rw [lastField?_append] at hf
    cases hlast : lastField? gs name with
    -- The name is set once more behind, and that is what holds.
    | some g =>
      rw [hlast, Option.some_or] at hf
      exact h'.held_eq name f (hlast.trans hf)
    | none =>
      -- The name is not touched again, so it holds what was set for the fields in front.
      rw [hlast, Option.none_or] at hf
      rw [h'.field?_eq name hlast]
      exact h.held_eq name f hf
  exists_content := by
    intro f hf
    cases List.mem_append.1 hf with
    | inl hf => exact h.exists_content f hf
    | inr hf => exact h'.exists_content f hf

/-- Fields of other names stay as they are. -/
private theorem field?_eq_of_ne (h : t.Overwrites members fs d d')
    (hname : ∀ f ∈ fs, f.name ≠ name) :
    d'.field? name = d.field? name :=
  h.field?_eq name (lastField?_eq_none.2 hname)

/-- What a field holds in the end does not depend on the instance that it was set in. -/
private theorem field?_congr {d₁' d₂' : Instance} (h₁ : t.Overwrites members fs d₁ d₁')
    (h₂ : t.Overwrites members fs d₂ d₂') (hf : f ∈ fs) :
    d₁'.field? f.name = d₂'.field? f.name := by
  obtain ⟨g, hg⟩ : ∃ g, lastField? fs f.name = some g := by
    rw [← Option.ne_none_iff_exists']
    exact fun hnone => lastField?_eq_none.1 hnone f hf rfl
  have heq := (h₁.held_eq _ g hg).symm.trans (h₂.held_eq _ g hg)
  exact Except.ok.inj heq

end Overwrites

/-- Reading own fields sets exactly those. -/
private theorem overwrites_readOwn (h : t.readOwn members fs d = .ok d') :
    t.Overwrites members fs d d' := by
  induction fs generalizing d with
  | nil =>
    cases h
    exact .nil _
  -- The first field is set, and then the others.
  | cons f fs ih =>
    obtain ⟨v, hv, h⟩ := Except.bind_eq_ok.1 h
    exact (Overwrites.set hv d).append (ih h)

/-- A reading sets the fields of the classes along the chain of superclasses, topmost first. -/
private theorem Reads.overwrites (h : t.Reads members p d r) (hr : r = .ok d') :
    ∃ above, t.Climbs p above ∧ t.Overwrites members (handledFields p above) d d' := by
  induction h generalizing d' with
  -- The topmost class sets its own fields only.
  | @top p d hsuper =>
    refine ⟨[], .top hsuper, ?_⟩
    simpa [handledFields] using overwrites_readOwn hr
  | lost => cases hr
  -- The fields above are set first, then the own ones.
  | up hsuper hq _ ih =>
    obtain ⟨d₀, hread, hown⟩ := Except.bind_eq_ok.1 hr
    obtain ⟨above, hclimbs, habove⟩ := ih hread
    refine ⟨_, .up hsuper hq hclimbs, ?_⟩
    rw [handledFields_cons]
    exact habove.append (overwrites_readOwn hown)

/-! ### Missing members -/

/-- Whether nothing is given for a field: its member is missing or null. -/
def Absent (members : List (String × Json)) (f : FieldPlan) : Prop :=
  Json.member? members f.wireName = none ∨ Json.member? members f.wireName = some .null

/-- Null is read as null or not at all. -/
private theorem eq_null_of_decodeJson_null {c : CodecRef} (h : t.decodeJson c .null = .ok v) :
    v = .null := by
  cases c with
  -- A codec of a table reads null as null, and a name without one refuses it.
  | generated name =>
    rw [decodeJson] at h
    split at h
    · cases h
      rfl
    · cases h
      rfl
    · cases h
  | scalar s =>
    rw [decodeJson] at h
    cases h
    rfl
  | _ =>
    rw [decodeJson] at h
    cases h
    rfl

/-- A missing member and one that is null both read as null. -/
private theorem eq_null_of_memberValue (habsent : Absent members f)
    (h : t.memberValue members f = .ok v) : v = .null := by
  rw [memberValue] at h
  rcases habsent with hnone | hnull
  · rw [hnone] at h
    cases h
    rfl
  · rw [hnull] at h
    exact eq_null_of_decodeJson_null h

/-- Null clears a field, or sets a primitive one to zero. -/
private theorem present?_fieldValue_null (f : FieldPlan) :
    (fieldValue f .null).present? = f.encoding.primitive?.map Scalar.zero := by
  rw [fieldValue]
  cases f.encoding.primitive? with
  | none => rfl
  | some s =>
    show s.zero.present? = some s.zero
    rw [Value.present?, Scalar.isNull_zero, if_neg Bool.false_ne_true]

/-- A field for which nothing is given is cleared, or set to zero if it is primitive. -/
private theorem content_of_absent {content : Option Value} (habsent : Absent members f)
    (h : t.held members f = .ok content) : content = f.encoding.primitive?.map Scalar.zero := by
  obtain ⟨v, hv, rfl⟩ := Except.map_eq_ok.1 h
  rw [eq_null_of_memberValue habsent hv, present?_fieldValue_null]

/-- Reading members into an instance through the codec of a class comes to an end, if the plans of
the table put no class above itself, and has one result.  It fails for one instance if it fails for
all of them, and with the same error.  If it does not fail, the type stays the same and so do all
fields that are not planned along the chain of superclasses, while a field that is planned there
holds the same afterwards whatever it held before.  That is what is read for it, which is nothing,
or zero in a primitive field, if its member is missing or null; where fields share a name it is what
is read for the last one. -/
theorem reads_overwrite_chain {plans : List CodecPlan} (hplans : CodecPlan.Acyclic plans)
    (tag : String) (hp : (ofPlans tag plans).object? name = some p)
    (members : List (String × Json)) :
    (∀ d, ∃ r, (∀ r', (ofPlans tag plans).Reads members p d r' ↔ r' = r) ∧
      r.map (·.fields) = (ofPlans tag plans).readInto p members d.fields) ∧
    ∀ d₁ d₂ r₁ r₂, (ofPlans tag plans).Reads members p d₁ r₁ →
      (ofPlans tag plans).Reads members p d₂ r₂ →
        (∀ e, r₁ = .error e ↔ r₂ = .error e) ∧
        ∀ d₁' d₂', r₁ = .ok d₁' → r₂ = .ok d₂' →
          d₁'.typeName = d₁.typeName ∧
          ∃ above, (ofPlans tag plans).Climbs p above ∧
            (∀ n, (∀ f ∈ handledFields p above, f.name ≠ n) → d₁'.field? n = d₁.field? n) ∧
            ∀ f ∈ handledFields p above,
              d₁'.field? f.name = d₂'.field? f.name ∧
              ∃ content, (ofPlans tag plans).held members f = .ok content ∧
                (Absent members f → content = f.encoding.primitive?.map Scalar.zero) ∧
                (lastField? (handledFields p above) f.name = some f →
                  d₁'.field? f.name = content) := by
  -- Without a class above itself, a chain is no longer than the table.
  have ha := acyclic_ofPlans hplans tag
  have hname := typeName_of_object? hp
  constructor
  -- A reading comes to an end, and there is no other with the same beginning.
  · intro d
    obtain ⟨r, hr, hfields⟩ := exists_reads ha (hname ▸ hp) (hname ▸ ha.height_lt_length hp)
      members d
    rw [readInto_eq]
    exact ⟨r, fun r' => ⟨fun hr' => hr'.unique hr, fun heq => heq ▸ hr⟩, hfields⟩
  · intro d₁ d₂ r₁ r₂ h₁ h₂
    refine ⟨fun e => h₁.error_iff h₂, fun d₁' d₂' hr₁ hr₂ => ?_⟩
    -- Both runs climb the same chain, so they write the same fields.
    obtain ⟨above, hclimbs, hover₁⟩ := h₁.overwrites hr₁
    obtain ⟨above', hclimbs', hover₂⟩ := h₂.overwrites hr₂
    rw [hclimbs'.unique hclimbs] at hover₂
    refine ⟨hover₁.typeName_eq, above, hclimbs, fun n => hover₁.field?_eq_of_ne, fun f hf => ?_⟩
    -- What is read for a field does not depend on the instance.
    obtain ⟨content, hcontent⟩ := hover₁.exists_content f hf
    refine ⟨hover₁.field?_congr hover₂ hf, content, hcontent,
      fun habsent => content_of_absent habsent hcontent, fun hlast => ?_⟩
    exact Except.ok.inj ((hover₁.held_eq _ f hlast).symm.trans hcontent)

/-- The plan of parts, which have a name and a weight. -/
def part : ObjectPlan :=
  ⟨"Part", false, none, ["Screw"],
    [⟨"name", "name", false, .string⟩, ⟨"weight", "weight", false, .primitive .int⟩]⟩

/-- The plan of screws, which are parts with a length.  Their title is their name, again. -/
def screw : ObjectPlan :=
  ⟨"Screw", false, some "Part", [],
    [⟨"length", "length", false, .boxed .int⟩, ⟨"name", "title", false, .string⟩]⟩

/-- A screw of which nothing is known. -/
def newScrew : Instance := ⟨"Screw", [], List.Pairwise.nil⟩

/-- A screw with all its fields, and one that is not planned. -/
def oldScrew : Instance where
  typeName := "Screw"
  fields :=
    [("length", .int 5), ("maker", .string "Ax"), ("name", .string "M3"), ("weight", .int 7)]
  ascending := by decide +kernel

/-- A title and a weight that is null are read into both screws.  The old one keeps its maker and
loses its length, and both are called by the title and have no weight. -/
theorem reads_overwrite_screw :
    CodecPlan.Acyclic [.object part, .object screw] ∧
    (ofPlans defaultTag [.object part, .object screw]).object? "Screw" = some screw ∧
    ∃ d₁ d₂, (ofPlans defaultTag [.object part, .object screw]).Reads
        [("title", .string "M4"), ("weight", .null)] screw newScrew (.ok d₁) ∧
      (ofPlans defaultTag [.object part, .object screw]).Reads
        [("title", .string "M4"), ("weight", .null)] screw oldScrew (.ok d₂) ∧
      d₂.typeName = "Screw" ∧ d₂.field? "maker" = some (.string "Ax") ∧
      d₂.field? "length" = none ∧ d₂.field? "weight" = some (.int 0) ∧
      d₂.field? "name" = d₁.field? "name" ∧ d₁.field? "name" = some (.string "M4") := by
  -- The plans are ranked by the lengths of their names: a part is above a screw.
  have hacyclic : CodecPlan.Acyclic [.object part, .object screw] :=
    CodecPlan.acyclic_of_rank String.length (by decide)
  have hscrew :
      (ofPlans defaultTag [.object part, .object screw]).object? "Screw" = some screw := by
    decide +kernel
  have hpart : (ofPlans defaultTag [.object part, .object screw]).object? "Part" = some part := by
    decide +kernel
  obtain ⟨hresult, hboth⟩ := reads_overwrite_chain hacyclic defaultTag hscrew
    [("title", .string "M4"), ("weight", .null)]
  obtain ⟨r₁, hr₁, hfields₁⟩ := hresult newScrew
  obtain ⟨r₂, hr₂, hfields₂⟩ := hresult oldScrew
  -- Both readings end, one in an instance that was empty and one in an instance that was not.
  have hnew : (ofPlans defaultTag [.object part, .object screw]).readInto screw
      [("title", .string "M4"), ("weight", .null)] newScrew.fields =
        .ok [("name", .string "M4"), ("weight", .int 0)] := by cbv
  have hold : (ofPlans defaultTag [.object part, .object screw]).readInto screw
      [("title", .string "M4"), ("weight", .null)] oldScrew.fields =
        .ok [("maker", .string "Ax"), ("name", .string "M4"), ("weight", .int 0)] := by cbv
  obtain ⟨d₁, rfl, hd₁⟩ := Except.map_eq_ok.1 (hfields₁.trans hnew)
  obtain ⟨d₂, rfl, -⟩ := Except.map_eq_ok.1 (hfields₂.trans hold)
  have hreads₁ := (hr₁ _).2 rfl
  have hreads₂ := (hr₂ _).2 rfl
  -- The general statement is applied to the two readings, the old screw first.
  obtain ⟨htype, above, hclimbs, hframe, hset⟩ :=
    (hboth _ _ _ _ hreads₂ hreads₁).2 d₂ d₁ rfl rfl
  -- The fields along the chain are those of parts and then those of screws.
  rw [hclimbs.unique (.up rfl hpart (.top rfl))] at hframe hset
  obtain ⟨-, length, -, hlength, hlast⟩ :=
    hset ⟨"length", "length", false, .boxed .int⟩ (by decide)
  obtain ⟨-, weight, -, hweight, hlast'⟩ :=
    hset ⟨"weight", "weight", false, .primitive .int⟩ (by decide)
  refine ⟨hacyclic, hscrew, d₁, d₂, hreads₁, hreads₂, htype, hframe "maker" (by decide), ?_, ?_, ?_,
    ?_⟩
  · exact (hlast (by decide)).trans (hlength (Or.inl rfl))
  · exact (hlast' (by decide)).trans (hweight (Or.inr rfl))
  · exact (hset ⟨"name", "title", false, .string⟩ (by decide)).1
  · rw [Instance.field?, hd₁]
    rfl

end CodecTable

end GraphCodec
