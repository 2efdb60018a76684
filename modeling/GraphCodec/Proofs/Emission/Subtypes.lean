import GraphCodec.Proofs.Generation.Identity
import GraphCodec.Proofs.Text.Quoted

/-!
# The emitted test for subtypes

The source of a class holds the names of its subtypes in a constant, and a function that looks a
name up by comparing it with one of them after another.  `Listing.knowsSubtype?` reads both from a
listing and does what they say.  For the source of a plan that is to look the name up in the list of
the plan (`ObjectPlan.knowsSubtype?_source`), however the fields and subtypes are called.
-/

namespace GraphCodec

open Text

/-! ### Reading listings -/

/-- Whether a line stands one level deep and starts with some text. -/
def SourceLine.starts (head : String) : SourceLine → Bool
  | .text 1 content => head.toList.isPrefixOf content.toList
  | _ => false

namespace Listing

/-- The lines of a listing from the first one on that stands one level deep and starts with some
text. -/
def itemFrom (head : String) (l : Listing) : Listing := l.dropWhile fun line => !line.starts head

/-- The start of the line with the names of the subtypes. -/
def subtypesHead : String := "const SUBTYPES: &'static [&'static str] = &["

/-- The start of the function that tests for subtypes. -/
def knownSubtypeHead : String := "fn is_known_subtype(&self, name: &str) -> bool"

/-- The body of the function that tests for subtypes. -/
def knownSubtypeBody : String := "Self::SUBTYPES.iter().any(|sub| *sub == name)"

/-- The names of subtypes in a listing. -/
def subtypeNames? (l : Listing) : Option (List String) :=
  match l.itemFrom subtypesHead with
  | .text _ content :: _ => readLiterals (content.toList.drop subtypesHead.length)
  | _ => none

/-- What the test for subtypes in a listing says about a name.  Its body compares the name with one
subtype after another. -/
def knowsSubtype? (l : Listing) (name : String) : Option Bool :=
  match l.itemFrom knownSubtypeHead with
  | _ :: .text _ body :: _ =>
    if body = knownSubtypeBody then l.subtypeNames?.map fun names => names.any (· == name) else none
  | _ => none

/-- Lines that do not start with some text are passed over. -/
theorem itemFrom_append {head : String} {before : Listing}
    (h : ∀ line ∈ before, line.starts head = false) (rest : Listing) :
    itemFrom head (before ++ rest) = itemFrom head rest :=
  List.dropWhile_append_of_pos fun line hline => by rw [h line hline]; rfl

/-- A line that starts with some text is the first one from which on it does. -/
theorem itemFrom_cons {head : String} {line : SourceLine} (h : line.starts head = true)
    (rest : Listing) : itemFrom head (line :: rest) = line :: rest :=
  List.dropWhile_cons_of_neg (by rw [h]; exact Bool.false_ne_true)

/-- What is nested twice stands deeper. -/
private theorem starts_of_mem_nest_nest {head : String} {l : Listing} {line : SourceLine}
    (h : line ∈ l.nest.nest) : line.starts head = false := by
  simp only [nest, List.map_map, List.mem_map, Function.comp_apply] at h
  obtain ⟨inner, -, rfl⟩ := h
  cases inner <;> rfl

end Listing

open Listing

/-- A text that starts with an identity with a suffix of some length has no space that soon. -/
private theorem space_notMem_take_identity (name suffix rest : String)
    (hsuffix : IsIdentifier suffix) :
    ' ' ∉ (codecIdentity name suffix ++ rest).toList.take suffix.length := by
  intro h
  -- The identity ends with the suffix, so it is at least as long.
  have hlength : suffix.length ≤ (codecIdentity name suffix).toList.length := by
    rw [codecIdentity_eq, String.toList_append, List.length_append, String.length_toList]
    exact Nat.le_add_left _ _
  rw [String.toList_append, List.take_append_of_le_length hlength] at h
  exact ((isIdentifier_codecIdentity name hsuffix).chars ' ' (List.mem_of_mem_take h)).ne_space rfl

/-- The suffix of the members for the codecs of fields. -/
theorem isIdentifier_codecSuffix : IsIdentifier "_codec" where
  chars := by simp [IsIdentifierChar]
  first := ⟨'_', _, rfl, by decide⟩

/-- The line of a codec that is held does not start with a text in which a space comes soon. -/
private theorem starts_slot {head : String} (hhead : ' ' ∈ head.toList.take 6) (f : FieldPlan)
    (rest : String) : (SourceLine.text 1 (f.slot ++ rest)).starts head = false := by
  rw [SourceLine.starts, Bool.eq_false_iff, ne_eq, List.isPrefixOf_iff_prefix]
  rintro ⟨t, ht⟩
  -- The line starts with an identifier that is at least as long as its suffix.
  apply space_notMem_take_identity f.name "_codec" rest isIdentifier_codecSuffix
  rw [← FieldPlan.slot, ← ht, show "_codec".length = 6 from rfl, List.take_append]
  exact List.mem_append_left _ hhead

namespace ObjectPlan

/-- Nothing in the structure of a codec starts with a text in which a space comes soon. -/
private theorem starts_of_mem_structSource {head : String} (hhead : ' ' ∈ head.toList.take 6)
    (p : ObjectPlan) (identity : String) {line : SourceLine}
    (h : line ∈ p.structSource identity) : line.starts head = false := by
  -- The structure is a single line, or a block with a line for each member.
  simp only [structSource, Listing.line, block, nest] at h
  split at h
  · simp only [List.mem_append, List.mem_singleton, or_assoc] at h
    rcases h with rfl | rfl | rfl <;> rfl
  · simp only [List.mem_append, List.mem_singleton, List.mem_map, List.mem_flatMap] at h
    rcases h with (rfl | rfl) | (rfl | ⟨_, ⟨f, -, rfl⟩, rfl⟩) | rfl
    · rfl
    · rfl
    · rfl
    · exact starts_slot hhead f.1 _
    · rfl

/-- The line with the names of the subtypes. -/
def subtypesLine (p : ObjectPlan) : SourceLine :=
  .text 1 (subtypesHead ++ literals p.subtypes ++ "];")

/-- What stands in front of the names of the subtypes. -/
def beforeSubtypes (p : ObjectPlan) (identity : String) : Listing :=
  p.structSource identity ++ gap ++
    [.text 0 "#[allow(clippy::new_without_default)]", .text 0 ("impl " ++ identity ++ " \x7b"),
      .text 1 ("pub const TYPE_NAME: &'static str = " ++ quote p.typeName ++ ";")]

/-- What stands between the names of the subtypes and the test for subtypes. -/
def betweenSubtypes (p : ObjectPlan) (identity : String) : Listing :=
  [.blank, .text 1 "pub fn new() -> Self \x7b"] ++ (p.newSource identity).nest.nest ++
    [.text 1 "\x7d", .text 0 "\x7d", .blank,
      .text 0 ("impl rt::FieldCodec for " ++ identity ++ " \x7b")] ++
    (shortFunction "fn type_name(&self) -> &str" "Self::TYPE_NAME").nest ++
    (shortFunction "fn is_abstract(&self) -> bool"
      (if p.isAbstract then "true" else "false")).nest ++
    (shortFunction "fn has_subtypes(&self) -> bool" "!Self::SUBTYPES.is_empty()").nest

/-- The source of a class holds the names of its subtypes, and behind them the test for them. -/
theorem source_eq (p : ObjectPlan) (identity : String) : ∃ rest, p.source identity =
    p.beforeSubtypes identity ++ p.subtypesLine :: (p.betweenSubtypes identity ++
      .text 1 (knownSubtypeHead ++ " \x7b") :: .text 2 knownSubtypeBody :: rest) := by
  -- Behind the test follow the functions that print and read.
  refine ⟨[.text 1 "\x7d", .blank] ++ (p.printSource ++ gap ++ p.readSource).nest ++
    [.text 0 "\x7d"], ?_⟩
  simp only [source, implSource, codecSource, shortFunction, beforeSubtypes, subtypesLine,
    betweenSubtypes, line, gap, block, nest, List.map_append, List.map_cons, List.map_nil,
    List.append_assoc, List.cons_append, List.nil_append, SourceLine.deeper, String.append_assoc,
    subtypesHead, knownSubtypeHead, knownSubtypeBody]

/-- The constant of the subtypes starts as the test expects. -/
private theorem starts_subtypesLine (p : ObjectPlan) :
    p.subtypesLine.starts subtypesHead = true := by
  simp only [subtypesLine, SourceLine.starts, String.toList_append, List.append_assoc]
  exact List.isPrefixOf_iff_prefix.2 (List.prefix_append _ _)

/-- Nothing in front of the names of the subtypes starts as they do, or as the test does. -/
theorem starts_of_mem_beforeSubtypes {head : String}
    (hhead : head = subtypesHead ∨ head = knownSubtypeHead) (p : ObjectPlan) (identity : String)
    {line : SourceLine} (h : line ∈ p.beforeSubtypes identity) : line.starts head = false := by
  -- A field can have any name, so its line is told apart by the space that both heads have.
  have hspace : ' ' ∈ head.toList.take 6 := by rcases hhead with rfl | rfl <;> decide
  simp only [beforeSubtypes, gap, List.mem_append, List.mem_cons, List.not_mem_nil, or_false] at h
  rcases h with (h | rfl) | rfl | rfl | rfl
  · exact starts_of_mem_structSource hspace p identity h
  · rfl
  · rfl
  · rfl
  · rcases hhead with rfl | rfl <;> simp only [SourceLine.starts, String.toList_append] <;> rfl

/-- A short function starts with its head only. -/
private theorem starts_of_mem_shortFunction {start body : String}
    (hstart : (SourceLine.text 1 (start ++ " \x7b")).starts knownSubtypeHead = false)
    {line : SourceLine} (h : line ∈ (shortFunction start body).nest) :
    line.starts knownSubtypeHead = false := by
  -- The lines of the function are its head, its body, its foot and a gap.
  simp only [shortFunction, Listing.line, gap, block, nest, List.map_append, List.map_cons,
    List.map_nil, SourceLine.deeper, List.mem_append, List.mem_cons, List.not_mem_nil,
    or_false] at h
  rcases h with ((rfl | rfl) | rfl) | rfl
  · exact hstart
  · rfl
  · decide
  · rfl

/-- Nothing between the names of the subtypes and the test starts as the test does. -/
private theorem starts_of_mem_betweenSubtypes (p : ObjectPlan) (identity : String)
    {line : SourceLine} (h : line ∈ p.subtypesLine :: p.betweenSubtypes identity) :
    line.starts knownSubtypeHead = false := by
  -- The constant itself comes first, then the constructor, then the three short functions.
  simp only [betweenSubtypes, List.mem_append, List.mem_cons, List.not_mem_nil, or_false,
    or_assoc] at h
  rcases h with rfl | rfl | rfl | h | rfl | rfl | rfl | rfl | h | h | h
  · simp only [subtypesLine, SourceLine.starts, String.toList_append, List.append_assoc]
    rfl
  · rfl
  · decide
  · exact starts_of_mem_nest_nest h
  · decide
  · rfl
  · rfl
  · rfl
  · exact starts_of_mem_shortFunction (by decide) h
  · exact starts_of_mem_shortFunction (by decide) h
  · exact starts_of_mem_shortFunction (by decide) h

/-- The names of the subtypes are read back from the source of a class. -/
private theorem subtypeNames?_source (p : ObjectPlan) (identity : String) :
    (p.source identity).subtypeNames? = some p.subtypes := by
  obtain ⟨rest, hsource⟩ := p.source_eq identity
  -- The first line with this beginning is the constant.
  rw [subtypeNames?, hsource,
    itemFrom_append fun line => p.starts_of_mem_beforeSubtypes (Or.inl rfl) identity,
    itemFrom_cons p.starts_subtypesLine]
  show readLiterals ((subtypesHead ++ literals p.subtypes ++ "];").toList.drop _) = _
  rw [String.toList_append, String.toList_append, ← String.length_toList, List.append_assoc,
    List.drop_left]
  exact readLiterals_literals p.subtypes

/-- The emitted test for subtypes looks a name up in the list of the plan. -/
theorem knowsSubtype?_source (p : ObjectPlan) (identity name : String) :
    (p.source identity).knowsSubtype? name = some (p.subtypes.any (· == name)) := by
  obtain ⟨rest, hsource⟩ := p.source_eq identity
  -- The first line that starts as the test does is its head.
  have hitem : (p.source identity).itemFrom knownSubtypeHead =
      .text 1 (knownSubtypeHead ++ " \x7b") :: .text 2 knownSubtypeBody :: rest := by
    rw [hsource, ← List.cons_append,
      itemFrom_append fun line => p.starts_of_mem_beforeSubtypes (Or.inr rfl) identity,
      itemFrom_append fun line => p.starts_of_mem_betweenSubtypes identity,
      itemFrom_cons (by decide)]
  rw [knowsSubtype?, hitem]
  -- Behind the head stands the body that is expected.
  show (if _ then _ else _) = _
  rw [if_pos rfl, subtypeNames?_source, Option.map_some]

end ObjectPlan

end GraphCodec
