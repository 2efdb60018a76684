import Mathlib.Data.List.Nodup
import GraphCodec.Proofs.Emission.Subtypes

/-!
# Members for the codecs of fields

The structure of a class has a member for each field whose codec it holds.  The name of the member
is made from the name of the field as an identity is, but nothing keeps it apart from the others.
Two fields get one member exactly if the letters and digits of their names are the same and the gaps
between these are equally wide, where an underscore is twice as wide as any other character
(`FieldPlan.slot_eq_iff`).  So the members are distinct if the names of the fields consist of
letters, digits and underscores, and then the structure holds one codec for each field
(`ObjectPlan.slots_apart`).  Other names can meet (`ObjectPlan.not_slots_apart`).
-/

namespace GraphCodec

/-- Whether a name consists of letters, digits and underscores. -/
def IsWord (s : String) : Prop := ∀ c ∈ s.toList, IsIdentifierChar c

-- By name, for else it could be decided for all characters that there are.
instance (s : String) : Decidable (IsWord s) := List.decidableBAll _ s.toList

/-! ### Outlines -/

/-- What an identity keeps of a name. -/
structure Outline where
  /-- The letters and digits, with the width of the gap in front of each. -/
  letters : List (Nat × Char)
  /-- The width of the gap behind the last of them. -/
  last : Nat
deriving DecidableEq, Repr

/-- How many underscores stand for a character between letters and digits. -/
def gapWidth (c : Char) : Nat := if c = '_' then 2 else 1

namespace Outline

/-- The outline of a text behind a gap, when characters between letters and digits are as wide as
`width` says. -/
def behind (width : Char → Nat) (gap : Nat) : List Char → Outline
  | [] => ⟨[], gap⟩
  | c :: cs =>
    if isIdentityChar c then
      let o := behind width 0 cs
      ⟨(gap, c) :: o.letters, o.last⟩
    else behind width (gap + width c) cs

/-- A text with an outline, with as many underscores in each gap as `fill` says for its width. -/
def spell (fill : Nat → Nat) (o : Outline) : List Char :=
  (o.letters.flatMap fun (gap, c) => List.replicate (fill gap) '_' ++ [c]) ++
    List.replicate (fill o.last) '_'

private theorem isIdentityChar_underscore : isIdentityChar '_' = false := by decide

/-- A letter ends the gap in front of it. -/
theorem behind_letter (width : Char → Nat) (gap : Nat) {c : Char} (h : isIdentityChar c = true)
    (cs : List Char) :
    behind width gap (c :: cs) =
      ⟨(gap, c) :: (behind width 0 cs).letters, (behind width 0 cs).last⟩ := by
  rw [behind, if_pos h]

/-- Any other character widens the gap. -/
theorem behind_other (width : Char → Nat) (gap : Nat) {c : Char} (h : isIdentityChar c = false)
    (cs : List Char) : behind width gap (c :: cs) = behind width (gap + width c) cs := by
  rw [behind, if_neg (by rw [h]; exact Bool.false_ne_true)]

/-- Underscores in front of a text widen its first gap by their number. -/
private theorem behind_underscores (gap n : Nat) (cs : List Char) :
    behind (fun _ => 1) gap (List.replicate n '_' ++ cs) = behind (fun _ => 1) (gap + n) cs := by
  induction n generalizing gap with
  | zero => rfl
  | succ n ih =>
    rw [List.replicate_succ, List.cons_append, behind_other _ _ isIdentityChar_underscore, ih,
      Nat.add_assoc, Nat.add_comm 1 n]

/-- A letter is spelled behind the underscores for its gap. -/
private theorem spell_cons (fill : Nat → Nat) (gap : Nat) (c : Char) (o : Outline) :
    spell fill ⟨(gap, c) :: o.letters, o.last⟩ =
      List.replicate (fill gap) '_' ++ c :: o.spell fill := by
  simp [spell]

end Outline

/-- A letter stands for itself in an identity. -/
private theorem identityChar_letter {c : Char} (h : isIdentityChar c = true) :
    identityChar c = [c] := by
  have hc : c ≠ '_' := by
    rintro rfl
    exact absurd h (by decide)
  rw [identityChar, if_neg hc, if_pos h]

/-- Any other character is replaced by as many underscores as it is wide. -/
private theorem identityChar_other {c : Char} (h : isIdentityChar c = false) :
    identityChar c = List.replicate (gapWidth c) '_' := by
  unfold identityChar gapWidth
  split
  · rfl
  · rw [h]
    rfl

/-- In front of a name stand underscores only. -/
private theorem identityGuard_eq (name : List Char) :
    identityGuard name = List.replicate (identityGuard name).length '_' :=
  List.eq_replicate_iff.2 ⟨rfl, fun _ => eq_of_mem_identityGuard⟩

namespace Outline

/-- What stands for a text in an identity has the outline of the text. -/
private theorem behind_flatMap_identityChar (gap : Nat) (cs : List Char) :
    behind (fun _ => 1) gap (cs.flatMap identityChar) = behind gapWidth gap cs := by
  induction cs generalizing gap with
  | nil => rfl
  -- A letter begins a new gap, and underscores widen the gap as what they stand for.
  | cons c cs ih =>
    rw [List.flatMap_cons]
    cases hc : isIdentityChar c with
    | true =>
      rw [identityChar_letter hc, List.singleton_append, behind_letter _ _ hc, ih,
        behind_letter _ _ hc]
    | false => rw [identityChar_other hc, behind_underscores, ih, behind_other _ _ hc]

/-- What stands for a text in an identity is spelled by the outline of the text. -/
private theorem spell_behind (gap : Nat) (cs : List Char) :
    (behind gapWidth gap cs).spell id = List.replicate gap '_' ++ cs.flatMap identityChar := by
  induction cs generalizing gap with
  | nil => rw [List.flatMap_nil, List.append_nil]; rfl
  | cons c cs ih =>
    -- The gap is spelled when the letter behind it comes.
    rw [List.flatMap_cons]
    cases hc : isIdentityChar c with
    | true =>
      rw [behind_letter _ _ hc, spell_cons, ih, identityChar_letter hc]
      rfl
    | false =>
      rw [behind_other _ _ hc, ih, identityChar_other hc, ← List.append_assoc,
        List.replicate_append_replicate]

/-- A text of letters, digits and underscores is spelled by its outline with half as many
underscores. -/
private theorem spell_half_behind (gap : Nat) {cs : List Char} (h : ∀ c ∈ cs, IsIdentifierChar c) :
    (behind gapWidth gap cs).spell (· / 2) = List.replicate (gap / 2) '_' ++ cs := by
  induction cs generalizing gap with
  | nil => rw [List.append_nil]; rfl
  | cons c cs ih =>
    -- A letter comes with its gap, and an underscore adds two to the gap, so one when halved.
    have hcs : ∀ c ∈ cs, IsIdentifierChar c := fun c hc => h c (List.mem_cons_of_mem _ hc)
    rcases h c List.mem_cons_self with hc | rfl
    · rw [behind_letter _ _ hc, spell_cons, ih 0 hcs]
      rfl
    · rw [behind_other _ _ isIdentityChar_underscore, ih _ hcs, gapWidth, if_pos rfl,
        Nat.add_div_right gap (by decide), List.replicate_succ', List.append_assoc,
        List.singleton_append]

end Outline

/-- The outline of a name.  In front of a digit an identity begins with an underscore. -/
def outline (name : String) : Outline :=
  .behind gapWidth (identityGuard name.toList).length name.toList

/-- Names make the same part of an identity exactly if they have the same outline. -/
private theorem identityStem_eq_iff (a b : String) :
    identityStem a.toList = identityStem b.toList ↔ outline a = outline b := by
  -- The outline is read off the stem, and the stem is spelled by the outline.
  have hread (s : String) : .behind (fun _ => 1) 0 (identityStem s.toList) = outline s := by
    rw [identityStem, identityGuard_eq, Outline.behind_underscores, Nat.zero_add,
      Outline.behind_flatMap_identityChar, outline]
  have hspell (s : String) : (outline s).spell id = identityStem s.toList := by
    rw [outline, Outline.spell_behind, ← identityGuard_eq, identityStem]
  constructor
  · intro h
    rw [← hread a, h, hread b]
  · intro h
    rw [← hspell a, h, hspell b]

/-- Different names of letters, digits and underscores have different outlines. -/
private theorem IsWord.eq_of_outline_eq {a b : String} (ha : IsWord a) (hb : IsWord b)
    (h : outline a = outline b) : a = b := by
  -- The underscore in front of a digit is lost when the width of the gap is halved.
  have hguard (s : String) : (identityGuard s.toList).length / 2 = 0 := by
    unfold identityGuard
    split
    · split <;> rfl
    · rfl
  have hspell (s : String) (hs : IsWord s) : (outline s).spell (· / 2) = s.toList := by
    rw [outline, Outline.spell_half_behind _ hs, hguard, List.replicate_zero, List.nil_append]
  rw [← String.toList_inj, ← hspell a ha, h, hspell b hb]

/-- Two fields have one member exactly if their names have the same outline. -/
theorem FieldPlan.slot_eq_iff (f g : FieldPlan) :
    f.slot = g.slot ↔ outline f.name = outline g.name := by
  rw [← identityStem_eq_iff, slot, slot, codecIdentity_eq, codecIdentity_eq, String.append_left_inj,
    String.ofList_inj]

/-! ### The members of a structure -/

/-- The name of a member and what stands behind it, in a line that has a member. -/
def SourceLine.member? : SourceLine → Option (String × String)
  | .text 1 content =>
    let name := content.toList.takeWhile (· ≠ ':')
    some (String.ofList name, String.ofList (content.toList.drop (name.length + 2)))
  | _ => none

/-- The members in a listing, with what stands behind their names. -/
def Listing.members (l : Listing) : List (String × String) := l.filterMap SourceLine.member?

/-- There is no colon in the name of a member. -/
private theorem FieldPlan.colon_notMem_slot (f : FieldPlan) : ':' ∉ f.slot.toList := by
  intro h
  have hslot := isIdentifier_codecIdentity f.name isIdentifier_codecSuffix
  exact absurd (hslot.chars ':' h) (by decide)

/-- The line for the codec of a field has the member of the field. -/
private theorem FieldPlan.member?_slot (f : FieldPlan) (rest : String) :
    (SourceLine.text 1 (f.slot ++ (": " ++ rest))).member? = some (f.slot, rest) := by
  have hplain : ∀ c ∈ f.slot.toList, decide (c ≠ ':') = true := by
    intro c hc
    rw [decide_eq_true_eq]
    rintro rfl
    exact f.colon_notMem_slot hc
  -- The first colon is the one behind the member, whatever the rest of the line is.
  have hcontent : (f.slot ++ (": " ++ rest)).toList =
      f.slot.toList ++ ':' :: ' ' :: rest.toList := by
    rw [String.toList_append, String.toList_append]
    rfl
  have hname : (f.slot ++ (": " ++ rest)).toList.takeWhile (· ≠ ':') = f.slot.toList := by
    rw [hcontent, List.takeWhile_append_of_pos hplain, List.takeWhile_cons_of_neg (by decide),
      List.append_nil]
  rw [SourceLine.member?, hname, hcontent, List.drop_length_add_append, String.ofList_toList]
  exact congrArg (fun r => some (f.slot, r)) String.ofList_toList

namespace ObjectPlan

/-- The members for the codecs of fields. -/
def slots (p : ObjectPlan) : List String := p.heldFields.map fun h => h.1.slot

/-- A block of lines for the codecs of fields has one member for each of them. -/
theorem members_block (held : List (FieldPlan × CodecRef)) (head foot : String)
    (rest : CodecRef → String) :
    (Listing.block head
      (held.flatMap fun (f, c) => Listing.line (f.slot ++ (": " ++ rest c))) foot).members =
      held.map fun h => (h.1.slot, rest h.2) := by
  -- Each line of the body declares one member.
  have hbody : (Listing.nest
      (held.flatMap fun (f, c) => Listing.line (f.slot ++ (": " ++ rest c)))).members =
      held.map fun h => (h.1.slot, rest h.2) := by
    induction held with
    | nil => rfl
    | cons h held ih =>
      rw [List.flatMap_cons, Listing.nest, List.map_append, Listing.members, List.filterMap_append,
        List.map_cons, ← ih]
      exact congrArg (fun m => m.toList ++ _) (h.1.member?_slot (rest h.2))
  -- Head and foot declare none.
  rw [Listing.block, Listing.members, List.filterMap_append, List.filterMap_append]
  exact (List.append_nil _).trans hbody

/-- The members of the structure are those for the codecs of fields. -/
private theorem members_structSource (p : ObjectPlan) (identity : String) :
    (p.structSource identity).members = p.slots.map fun slot => (slot, "rt::CodecHandle,") := by
  unfold structSource
  -- Without members the structure is one line.
  split
  case isTrue h =>
    rw [slots, List.isEmpty_iff.1 h]
    rfl
  case isFalse =>
    rw [Listing.members, List.filterMap_append, slots, List.map_map]
    exact members_block p.heldFields ("pub struct " ++ identity ++ " \x7b") "\x7d"
      fun _ => "rt::CodecHandle,"

/-- The expression that makes the structure has each member with the codec of the field. -/
theorem members_newSource (p : ObjectPlan) (identity : String) :
    (p.newSource identity).members =
      p.heldFields.map fun h => (h.1.slot, h.2.handle ++ ",") := by
  unfold newSource
  -- Without members the initializer is one line as well.
  split
  case isTrue h =>
    rw [List.isEmpty_iff.1 h]
    rfl
  case isFalse =>
    simp only [String.append_assoc]
    exact members_block p.heldFields _ _ fun c => c.handle ++ ","

/-- A codec is held for a field exactly if the field is written by it. -/
private theorem mem_heldFields {p : ObjectPlan} {f : FieldPlan} {c : CodecRef} :
    (f, c) ∈ p.heldFields ↔ f ∈ p.fields ∧ f.encoding = .nested c := by
  have hheld : f.heldCodec? = some c ↔ f.encoding = .nested c := by
    cases h : f.encoding <;> simp [FieldPlan.heldCodec?, h]
  simp [heldFields, hheld]

/-- The statements for a field refer to the codec by the member of the field. -/
private theorem codecExpression_of_mem_heldFields {p : ObjectPlan} {h : FieldPlan × CodecRef}
    (hh : h ∈ p.heldFields) : h.1.codecExpression = "&*self." ++ h.1.slot := by
  rw [FieldPlan.codecExpression, (mem_heldFields.1 hh).2]

/-- If the names of fields are distinct, so are those of the fields whose codecs are held. -/
private theorem nodup_heldFields {p : ObjectPlan} (h : (p.fields.map (·.name)).Nodup) :
    (p.heldFields.map fun h => h.1.name).Nodup := by
  rw [List.Nodup, List.pairwise_map] at h ⊢
  refine h.filterMap _ fun f g hne hf hhf hg hhg => ?_
  obtain ⟨_, -, rfl⟩ := Option.map_eq_some_iff.1 hhf
  obtain ⟨_, -, rfl⟩ := Option.map_eq_some_iff.1 hhg
  exact hne

/-- The members are distinct exactly if the outlines of the names are. -/
theorem nodup_slots_iff (p : ObjectPlan) :
    p.slots.Nodup ↔ (p.heldFields.map fun h => outline h.1.name).Nodup := by
  rw [slots, List.Nodup, List.Nodup, List.pairwise_map, List.pairwise_map]
  exact List.Pairwise.iff fun h h' => not_congr (h.1.slot_eq_iff h'.1)

/-- Different names of letters, digits and underscores make different members. -/
private theorem nodup_slots_of_isWord {p : ObjectPlan} (h : (p.fields.map (·.name)).Nodup)
    (hwords : ∀ h ∈ p.heldFields, IsWord h.1.name) : p.slots.Nodup := by
  have hmap : (p.heldFields.map fun h => outline h.1.name) =
      (p.heldFields.map fun h => h.1.name).map outline := by rw [List.map_map]; rfl
  rw [nodup_slots_iff, hmap]
  -- Different fields have different names, and words are told apart by their outlines.
  refine List.Nodup.map_on (fun a ha b hb heq => ?_) (nodup_heldFields h)
  obtain ⟨f, hf, rfl⟩ := List.mem_map.1 ha
  obtain ⟨g, hg, rfl⟩ := List.mem_map.1 hb
  exact (hwords f hf).eq_of_outline_eq (hwords g hg) heq

/-- Where the members are distinct, a field is found under its own. -/
private theorem lookup_slot {held : List (FieldPlan × CodecRef)}
    (hslots : (held.map fun h => h.1.slot).Nodup) {h : FieldPlan × CodecRef} (hh : h ∈ held)
    (rest : CodecRef → String) :
    (held.map fun h => (h.1.slot, rest h.2)).lookup h.1.slot = some (rest h.2) := by
  induction held with
  | nil => cases hh
  | cons first held ih =>
    rw [List.map_cons, List.nodup_cons] at hslots
    rw [List.map_cons, List.lookup_cons]
    -- The field is the first one, or it has another member than that.
    rcases List.mem_cons.1 hh with rfl | hh
    · rw [beq_self_eq_true]
    · have hne : h.1.slot ≠ first.1.slot := fun heq =>
        hslots.1 (heq ▸ List.mem_map.2 ⟨h, hh, rfl⟩)
      rw [beq_eq_false_iff_ne.2 hne]
      exact ih hslots.2 hh

/-- The members for the codecs of fields with different names are distinct exactly if no two of the
names have one outline, as is the case if they consist of letters, digits and underscores.  Then the
structure has one member for each codec, and the statements for a field refer to the member that was
made from its codec. -/
theorem slots_apart (p : ObjectPlan) (identity : String)
    (hnames : (p.fields.map (·.name)).Nodup) :
    (p.slots.Nodup ↔ (p.heldFields.map fun h => outline h.1.name).Nodup) ∧
      ((∀ h ∈ p.heldFields, IsWord h.1.name) → p.slots.Nodup) ∧
      (p.structSource identity).members.map (·.1) = p.slots ∧
      (p.slots.Nodup → ∀ h ∈ p.heldFields, h.1.codecExpression = "&*self." ++ h.1.slot ∧
        (p.newSource identity).members.lookup h.1.slot = some (h.2.handle ++ ",")) := by
  -- Both kinds of listing have the members in the order of the fields.
  refine ⟨p.nodup_slots_iff, nodup_slots_of_isWord hnames, ?_, fun hslots h hh => ⟨?_, ?_⟩⟩
  · rw [members_structSource, List.map_map]
    exact List.map_id _
  · exact codecExpression_of_mem_heldFields hh
  · rw [members_newSource]
    exact lookup_slot hslots hh fun c => c.handle ++ ","

/-- A letter whose copies are counted and listed. -/
def letter (copies counted : String) : ObjectPlan where
  typeName := "Letter"
  isAbstract := false
  superclass := none
  subtypes := []
  fields := [⟨copies, copies, false, .nested (.sequence .list .string)⟩,
    ⟨counted, counted, false, .nested (.sequence .list (.scalar .int))⟩]

/-- The structure for a letter whose fields have names of letters and underscores. -/
theorem slots_apart_letter :
    ((letter "carbon__copy" "carbon_copy").fields.map (·.name)).Nodup ∧
      (letter "carbon__copy" "carbon_copy").slots.Nodup ∧
      (letter "carbon__copy" "carbon_copy").slots =
        ["carbon____copy_codec", "carbon__copy_codec"] := by
  have hnames : ((letter "carbon__copy" "carbon_copy").fields.map (·.name)).Nodup := by decide
  have hwords : ∀ h ∈ (letter "carbon__copy" "carbon_copy").heldFields, IsWord h.1.name := by decide
  exact ⟨hnames, (slots_apart _ "LetterCodec" hnames).2.1 hwords, by decide⟩

/-- A hyphen and a dot make the same underscore: a letter whose fields differ in nothing else has
one member for both codecs, and the structure has it twice. -/
theorem not_slots_apart :
    ((letter "carbon-copy" "carbon.copy").fields.map (·.name)).Nodup ∧
      ¬ (letter "carbon-copy" "carbon.copy").slots.Nodup ∧
      ((letter "carbon-copy" "carbon.copy").structSource "LetterCodec").members =
        [("carbon_copy_codec", "rt::CodecHandle,"), ("carbon_copy_codec", "rt::CodecHandle,")] := by
  decide

end ObjectPlan

end GraphCodec
