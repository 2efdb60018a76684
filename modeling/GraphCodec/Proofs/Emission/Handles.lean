import GraphCodec.Proofs.Emission.Slots

/-!
# Codec expressions tell codecs apart

The expression that builds the codec of a reference begins with a text that belongs to the sort of
the codec, and no such text begins another one (`CodecRef.Head.eq_of_isPrefix`).  Behind it stand
the expressions for the parts and the literals of names, each of which ends by itself.  So an
expression can be told from whatever stands behind it (`CodecRef.handle_append_inj`), whatever
characters the names of types have: two references have one expression only if they are the same
(`CodecRef.handle_eq_iff`).
-/

namespace GraphCodec

/-- A string literal ends by itself. -/
private theorem Text.quote_append_inj {s u : String} {r w : List Char}
    (h : (quote s).toList ++ r = (quote u).toList ++ w) : s = u ∧ r = w := by
  have hread := congrArg readQuoted h
  rw [readQuoted_quote, readQuoted_quote] at hread
  cases hread
  exact ⟨rfl, rfl⟩

namespace CodecRef

/-! ### Beginnings -/

/-- The sort of a codec, apart from its parts. -/
inductive Head where
  | scalar (s : Scalar)
  | string
  | date
  | timestamp
  | localDate
  | any
  | generated
  | sequence (shape : Shape)
  | textKeyMap
  | parsedKeyMap
  | pairedMap
deriving DecidableEq, Repr

namespace Head

/-- All sorts of codecs. -/
def all : List Head :=
  Scalar.all.map scalar ++ [string, date, timestamp, localDate, any, generated] ++
    [Shape.array, Shape.list, Shape.set].map sequence ++ [textKeyMap, parsedKeyMap, pairedMap]

/-- Every sort of codec is in the list of all. -/
private theorem mem_all (h : Head) : h ∈ all := by
  cases h with
  | scalar s => cases s <;> decide
  | sequence shape => cases shape <;> decide
  | _ => decide

/-- The expression for an owned handle up to the arguments of its codec. -/
def ownedOpening (codecType : String) : String :=
  "rt::CodecHandle::owned(rt::" ++ codecType ++ "::new("

/-- The expression for a codec up to the first of its parts; one without parts is there in full. -/
def opening : Head → String
  | scalar s => sharedHandle (s.expression ++ ".codec()")
  | string => sharedHandle "&rt::STRING"
  | date => sharedHandle "&rt::DATE"
  | timestamp => sharedHandle "&rt::TIMESTAMP"
  | localDate => sharedHandle "&rt::LOCAL_DATE"
  | any => sharedHandle "&rt::ANY"
  | generated => ownedOpening "GeneratedRef"
  | sequence shape => ownedOpening shape.codecType
  | textKeyMap => ownedOpening "StringMapCodec" ++ "None, "
  | parsedKeyMap => ownedOpening "StringMapCodec" ++ "Some("
  | pairedMap => ownedOpening "ObjectMapCodec"

/-- No sort of codecs begins as another does. -/
theorem eq_of_isPrefix : ∀ h ∈ all, ∀ k ∈ all, h.opening.toList <+: k.opening.toList → h = k := by
  decide +kernel

/-- The beginning of an expression tells the sort of the codec. -/
private theorem opening_append_inj {h k : Head} {r s : List Char}
    (heq : h.opening.toList ++ r = k.opening.toList ++ s) : h = k ∧ r = s := by
  -- Two beginnings of one text are beginnings of each other.
  have hh : h.opening.toList <+: h.opening.toList ++ r := List.prefix_append _ _
  have hk : k.opening.toList <+: h.opening.toList ++ r := heq ▸ List.prefix_append _ _
  have hsame : h = k := by
    rcases List.prefix_or_prefix_of_prefix hh hk with hprefix | hprefix
    · exact eq_of_isPrefix h (mem_all h) k (mem_all k) hprefix
    · exact (eq_of_isPrefix k (mem_all k) h (mem_all h) hprefix).symm
  subst hsame
  exact ⟨rfl, List.append_cancel_left heq⟩

end Head

/-- The sort of the codec of a reference. -/
def head : CodecRef → Head
  | scalar s => .scalar s
  | string => .string
  | date => .date
  | timestamp => .timestamp
  | localDate => .localDate
  | any => .any
  | generated _ => .generated
  | sequence shape _ => .sequence shape
  | textKeyMap _ => .textKeyMap
  | parsedKeyMap _ _ => .parsedKeyMap
  | pairedMap _ _ => .pairedMap

/-! ### What follows -/

/-- The end of the expression for an owned handle. -/
def closing : List Char := [')', ')']

/-- The expression for the codec of a reference behind its beginning. -/
def parts : CodecRef → List Char
  | generated name => (Text.quote name).toList ++ closing
  | sequence _ element => element.handle.toList ++ closing
  | textKeyMap value => value.handle.toList ++ closing
  | parsedKeyMap key value =>
    key.handle.toList ++ ([')', ',', ' '] ++ (value.handle.toList ++ closing))
  | pairedMap key value => key.handle.toList ++ ([',', ' '] ++ (value.handle.toList ++ closing))
  | scalar _ | string | date | timestamp | localDate | any => []

/-- The expression of an owned codec begins with its type and ends with two parentheses. -/
private theorem toList_ownedHandle (codecType arguments : String) :
    (ownedHandle codecType arguments).toList =
      (Head.ownedOpening codecType).toList ++ (arguments.toList ++ closing) := by
  have hclosing : "))".toList = closing := by decide
  unfold ownedHandle Head.ownedOpening
  rw [String.toList_append, String.toList_append, List.append_assoc, hclosing]

/-- An expression is the beginning for the sort of codec and the parts behind it. -/
private theorem toList_handle (c : CodecRef) :
    c.handle.toList = c.head.opening.toList ++ c.parts := by
  cases c with
  | generated name => rw [handle, toList_ownedHandle, head, Head.opening, parts]
  | sequence shape element => rw [handle, toList_ownedHandle, head, Head.opening, parts]
  | textKeyMap value =>
    rw [handle, toList_ownedHandle, head, Head.opening, String.toList_append,
      String.toList_append, List.append_assoc, List.append_assoc, parts]
  -- Between the parts of a map stand the texts that separate arguments.
  | parsedKeyMap key value =>
    have hbetween : "), ".toList = [')', ',', ' '] := by decide
    rw [handle, toList_ownedHandle, head, Head.opening, parts, ← hbetween]
    simp only [String.toList_append, List.append_assoc]
  | pairedMap key value =>
    have hbetween : ", ".toList = [',', ' '] := by decide
    rw [handle, toList_ownedHandle, head, Head.opening, parts, ← hbetween]
    simp only [String.toList_append, List.append_assoc]
  | _ => rw [handle, head, Head.opening, parts, List.append_nil]

/-- The expressions of two references can only be the same, up to what stands behind them, if both
are of one sort. -/
private theorem head_eq_of_handle_append {a b : CodecRef} {r s : List Char}
    (h : a.handle.toList ++ r = b.handle.toList ++ s) :
    a.head = b.head ∧ a.parts ++ r = b.parts ++ s := by
  rw [toList_handle, toList_handle, List.append_assoc, List.append_assoc] at h
  exact Head.opening_append_inj h

/-- An expression can be told from whatever stands behind it. -/
theorem handle_append_inj {a b : CodecRef} {r s : List Char}
    (h : a.handle.toList ++ r = b.handle.toList ++ s) : a = b ∧ r = s := by
  -- Along the first reference; the other one is of the same sort, and its parts stand in the same
  -- places, each with the rest of the expression behind it.
  induction a generalizing b r s with
  | generated name =>
    obtain ⟨hhead, hparts⟩ := head_eq_of_handle_append h
    cases b with
    | generated other =>
      -- The literal of the name ends by itself, and then the same parentheses follow.
      rw [parts, parts, List.append_assoc, List.append_assoc] at hparts
      obtain ⟨rfl, hrest⟩ := Text.quote_append_inj hparts
      exact ⟨rfl, List.append_cancel_left hrest⟩
    | _ => cases hhead
  | sequence shape element ih =>
    obtain ⟨hhead, hparts⟩ := head_eq_of_handle_append h
    cases b with
    | sequence shape' other =>
      cases hhead
      -- By induction the expression of the elements ends where the other one does.
      rw [parts, parts, List.append_assoc, List.append_assoc] at hparts
      obtain ⟨rfl, hrest⟩ := ih hparts
      exact ⟨rfl, List.append_cancel_left hrest⟩
    | _ => cases hhead
  | textKeyMap value ih =>
    obtain ⟨hhead, hparts⟩ := head_eq_of_handle_append h
    cases b with
    | textKeyMap other =>
      rw [parts, parts, List.append_assoc, List.append_assoc] at hparts
      obtain ⟨rfl, hrest⟩ := ih hparts
      exact ⟨rfl, List.append_cancel_left hrest⟩
    | _ => cases hhead
  | parsedKeyMap key value ihkey ihvalue =>
    obtain ⟨hhead, hparts⟩ := head_eq_of_handle_append h
    cases b with
    | parsedKeyMap otherKey otherValue =>
      -- The expression of the keys ends first, then that of the values.
      simp only [parts, List.append_assoc] at hparts
      obtain ⟨rfl, hvalues⟩ := ihkey hparts
      obtain ⟨rfl, hrest⟩ := ihvalue (List.append_cancel_left hvalues)
      exact ⟨rfl, List.append_cancel_left hrest⟩
    | _ => cases hhead
  | pairedMap key value ihkey ihvalue =>
    obtain ⟨hhead, hparts⟩ := head_eq_of_handle_append h
    cases b with
    | pairedMap otherKey otherValue =>
      simp only [parts, List.append_assoc] at hparts
      obtain ⟨rfl, hvalues⟩ := ihkey hparts
      obtain ⟨rfl, hrest⟩ := ihvalue (List.append_cancel_left hvalues)
      exact ⟨rfl, List.append_cancel_left hrest⟩
    | _ => cases hhead
  -- The other sorts have no parts, so the beginning is the whole expression.
  | scalar | string | date | timestamp | localDate | any =>
    obtain ⟨hhead, hparts⟩ := head_eq_of_handle_append h
    cases b <;> cases hhead
    exact ⟨rfl, hparts⟩

/-- Different references have different expressions. -/
private theorem handle_inj {a b : CodecRef} (h : a.handle = b.handle) : a = b :=
  (handle_append_inj (r := []) (s := []) (by rw [h])).1

/-- Two references have one expression exactly if they are the same.  So the structures of two
classes are made with one initializer for each codec exactly if they hold the same codecs under the
same names. -/
theorem handle_eq_iff :
    (∀ a b : CodecRef, a.handle = b.handle ↔ a = b) ∧
      ∀ (p q : ObjectPlan) (identity other : String),
        (p.newSource identity).members = (q.newSource other).members ↔
          (p.heldFields.map fun h => (h.1.slot, h.2)) =
            q.heldFields.map fun h => (h.1.slot, h.2) := by
  refine ⟨fun a b => ⟨handle_inj, congrArg handle⟩, fun p q identity other => ?_⟩
  -- The members of the initializer are those fields, each with the expression of its codec.
  have hmembers : ∀ p : ObjectPlan,
      (p.heldFields.map fun h => (h.1.slot, h.2.handle ++ ",")) =
        (p.heldFields.map fun h => (h.1.slot, h.2)).map fun m => (m.1, m.2.handle ++ ",") :=
    fun p => by rw [List.map_map]; rfl
  -- Since expressions tell codecs apart, so do the members made of them.
  have hinjective : Function.Injective fun m : String × CodecRef => (m.1, m.2.handle ++ ",") := by
    intro m n hmn
    obtain ⟨hslot, hhandle⟩ := Prod.mk.inj hmn
    have hchars := congrArg String.toList hhandle
    rw [String.toList_append, String.toList_append] at hchars
    exact Prod.ext hslot (handle_append_inj hchars).1
  rw [ObjectPlan.members_newSource, ObjectPlan.members_newSource, hmembers, hmembers]
  exact (List.map_injective_iff.2 hinjective).eq_iff

/-- Names with quotes, parentheses and commas do not run into the expression around them. -/
example : (pairedMap (generated "a\")), ") string).handle =
    "rt::CodecHandle::owned(rt::ObjectMapCodec::new(" ++
      "rt::CodecHandle::owned(rt::GeneratedRef::new(\"a\\\")), \")), " ++
        "rt::CodecHandle::Shared(&rt::STRING)))" := by decide +kernel

end CodecRef

end GraphCodec
