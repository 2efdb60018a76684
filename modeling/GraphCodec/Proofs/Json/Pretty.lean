import Mathlib
import GraphCodec.Proofs.Json.RoundTrip

/-!
# Pretty JSON reads back

The text of a value that is spread over lines is scanned as the same draft as the text without
blanks (`scan_renderPretty`).  The blanks of such a text stand only where the scanner skips them:
before a value, before a member's name and after a value that has ended (`Scanner.SkipsBlanks`).
-/

namespace GraphCodec.Json

/-- A line break ends a number. -/
theorem endsValue_writeBreak (level : Nat) (rest : List Char) :
    EndsValue (writeBreak level rest) :=
  endsValue_break _

namespace Scanner

variable {frames : List Frame} {rest : List Char}

/-- Whether blanks leave the scanner where it is. -/
def SkipsBlanks (s : Scanner) : Prop := ∀ c, isBlank c = true → s.step c = .ok s

/-- Blanks are skipped where a value is due. -/
theorem skipsBlanks_value (frames : List Frame) : SkipsBlanks ⟨frames, .value⟩ := by
  intro c hc
  simp only [step, hc, if_true]

/-- Blanks are skipped where the name of a member is due. -/
private theorem skipsBlanks_name (frames : List Frame) (members : List Draft.Member) :
    SkipsBlanks ⟨frames, .name members⟩ := by
  intro c hc
  simp only [step, hc, if_true]

/-- Blanks are skipped behind a value. -/
private theorem skipsBlanks_ended (frames : List Frame) (e : Ended) :
    SkipsBlanks ⟨frames, .ended e⟩ := by
  intro c hc
  simp only [step, endedStep, hc, if_true]

/-- Blanks in front of other characters are skipped. -/
private theorem SkipsBlanks.run_append {s : Scanner} (hs : s.SkipsBlanks) {blanks : List Char}
    (h : ∀ c ∈ blanks, isBlank c = true) : s.run (blanks ++ rest) = s.run rest := by
  induction blanks with
  | nil => rfl
  | cons c blanks ih =>
    rw [List.cons_append, run_cons (hs c (h c List.mem_cons_self)),
      ih fun c hc => h c (List.mem_cons_of_mem _ hc)]

/-- A line break with its indentation is skipped. -/
theorem SkipsBlanks.run_writeBreak {s : Scanner} (hs : s.SkipsBlanks) (level : Nat) :
    s.run (writeBreak level rest) = s.run rest := by
  have hspaces : ∀ c ∈ List.replicate (2 * level) ' ', isBlank c = true := by
    intro c hc
    rw [List.eq_of_mem_replicate hc]
    rfl
  rw [writeBreak, run_cons (hs '\n' rfl), hs.run_append hspaces]

/-- The colon behind a member's name and the blank behind the colon. -/
theorem run_colon_blank (members : List Draft.Member) (name : String) :
    run ⟨frames, .colon members (.ok name)⟩ (':' :: ' ' :: rest) =
      run ⟨.object members (.ok name) :: frames, .value⟩ rest := by
  rw [run_colon, run_cons (skipsBlanks_value _ ' ' rfl)]

mutual

/-- The pretty text of a value is scanned as the value that it reads back as. -/
private theorem run_writePretty (level : Nat) (j : Json) (frames : List Frame) (rest : List Char)
    (hj : j.Readable) (hrest : EndsValue rest) :
    run ⟨frames, .value⟩ (j.writePretty level rest) =
      run (complete frames j.reread.toDraft) rest := by
  match j with
  -- What has nothing inside is written without line breaks.
  | .null | .bool _ | .number _ | .string _ | .array [] | .object [] =>
    rw [writePretty]
    · exact run_write _ frames rest hj hrest
    · intro _ _ h
      cases h
    · intro _ _ _ h
      cases h
  | .array (j :: items) =>
    have hj : j.Readable ∧ ReadableItems items := hj
    -- A comma or a line break follows, and either ends a number.
    have hend : EndsValue
        (writePrettyItems (level + 1) items (writeBreak level (']' :: rest))) := by
      cases items with
      | nil => exact endsValue_writeBreak _ _
      | cons k items => exact endsValue_cons (Or.inl rfl)
    rw [writePretty, run_open_array, (skipsBlanks_value _).run_writeBreak,
      run_writePretty (level + 1) j (.array [] :: frames) _ hj.1 hend]
    exact run_writePrettyItems level items frames rest [j.reread.toDraft] hj.2
  | .object ((name, j) :: members) =>
    have hj : j.Readable ∧ ReadableMembers members := hj
    -- The same holds for members.
    have hend : EndsValue
        (writePrettyMembers (level + 1) members (writeBreak level ('}' :: rest))) := by
      cases members with
      | nil => exact endsValue_writeBreak _ _
      | cons m members => exact endsValue_cons (Or.inl rfl)
    rw [writePretty, run_open_object, (skipsBlanks_name _ _).run_writeBreak, run_name,
      run_colon_blank,
      run_writePretty (level + 1) j (.object [] (.ok name) :: frames) _ hj.1 hend]
    exact run_writePrettyMembers level members frames rest [(.ok name, j.reread.toDraft)] hj.2

/-- The elements after the first and the end of an array on lines of their own; the elements before
them are last first. -/
theorem run_writePrettyItems (level : Nat) (items : List Json) (frames : List Frame)
    (rest : List Char) (before : List Draft) (hitems : ReadableItems items) :
    run ⟨frames, .ended (.element before)⟩
        (writePrettyItems (level + 1) items (writeBreak level (']' :: rest))) =
      run (complete frames (.array (before.reverse ++ toDrafts (rereadItems items)) none))
        rest := by
  match items with
  | [] =>
    -- The array ends on a line of its own.
    rw [writePrettyItems, (skipsBlanks_ended _ _).run_writeBreak, rereadItems, toDrafts,
      List.append_nil]
    exact run_cons rfl
  | j :: items =>
    have hend : EndsValue
        (writePrettyItems (level + 1) items (writeBreak level (']' :: rest))) := by
      cases items with
      | nil => exact endsValue_writeBreak _ _
      | cons k items => exact endsValue_cons (Or.inl rfl)
    -- The element is placed behind those before it.
    have hplace : complete (.array before :: frames) j.reread.toDraft =
        ⟨frames, .ended (.element (j.reread.toDraft :: before))⟩ := rfl
    rw [writePrettyItems, run_comma_element, (skipsBlanks_value _).run_writeBreak,
      run_writePretty (level + 1) j (.array before :: frames) _ hitems.1 hend, hplace,
      run_writePrettyItems level items frames rest (j.reread.toDraft :: before) hitems.2,
      List.reverse_cons, List.append_assoc, List.singleton_append, rereadItems, toDrafts]

/-- The members after the first and the end of an object on lines of their own; the members before
them are last first. -/
theorem run_writePrettyMembers (level : Nat) (members : List (String × Json))
    (frames : List Frame) (rest : List Char) (before : List Draft.Member)
    (hmembers : ReadableMembers members) :
    run ⟨frames, .ended (.member before)⟩
        (writePrettyMembers (level + 1) members (writeBreak level ('}' :: rest))) =
      run (complete frames
        (.object (before.reverse ++ toDraftMembers (rereadMembers members)) none)) rest := by
  match members with
  | [] =>
    -- The object ends on a line of its own.
    rw [writePrettyMembers, (skipsBlanks_ended _ _).run_writeBreak, rereadMembers, toDraftMembers,
      List.append_nil]
    exact run_cons rfl
  | (name, j) :: members =>
    have hmembers : j.Readable ∧ ReadableMembers members := hmembers
    have hend : EndsValue
        (writePrettyMembers (level + 1) members (writeBreak level ('}' :: rest))) := by
      cases members with
      | nil => exact endsValue_writeBreak _ _
      | cons m members => exact endsValue_cons (Or.inl rfl)
    -- The member is placed behind those before it.
    have hplace : complete (.object before (.ok name) :: frames) j.reread.toDraft =
        ⟨frames, .ended (.member ((.ok name, j.reread.toDraft) :: before))⟩ := rfl
    rw [writePrettyMembers, run_comma_member, (skipsBlanks_name _ _).run_writeBreak, run_name,
      run_colon_blank, run_writePretty (level + 1) j (.object before (.ok name) :: frames) _
        hmembers.1 hend, hplace,
      run_writePrettyMembers level members frames rest ((.ok name, j.reread.toDraft) :: before)
        hmembers.2,
      List.reverse_cons, List.append_assoc, List.singleton_append, rereadMembers, toDraftMembers]

end

end Scanner

/-- The pretty text of a value is one JSON document. -/
theorem scan_renderPretty {j : Json} (hj : j.Readable) :
    Document.scan j.renderPretty = ⟨j.reread.toDraft, false⟩ := by
  rw [Document.scan, renderPretty, String.toList_ofList, Scanner.start,
    Scanner.run_writePretty 0 j [] [] hj endsValue_nil]
  rfl

end GraphCodec.Json
