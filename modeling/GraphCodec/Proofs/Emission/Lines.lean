import GraphCodec.Proofs.Generation.Identities
import GraphCodec.Proofs.Text.Quoted

/-!
# Lines of emitted source

Names of types, fields, members and variants come from a schema and can contain any characters.  In
emitted source they stand in string literals or as parts of identifiers, where they make no line
breaks (`oneLine_quote`, `oneLine_codecIdentity`), but for the comment in front of a codec, which
has the name of the type as it is.  So the number of lines for a plan is determined by its shape and
by the line breaks in that one name (`Naming.lineBreaks_emit`), and a type whose name has a line
break adds a line (`Naming.not_lineBreaks_emit`).

The identities in a unit that is generated have no line breaks if the suffix of the codecs has none,
so its sources have the lines that the shapes and the names of the types say
(`GeneratorConfig.lineBreaks_of_generate`).
-/

namespace GraphCodec

open Text

/-! ### Line breaks in texts -/

/-- The number of line breaks in a text. -/
def lineBreaks (s : String) : Nat := s.toList.count '\n'

/-- Whether a text stands on one line. -/
def OneLine (s : String) : Prop := '\n' ∉ s.toList

instance (s : String) : Decidable (OneLine s) := inferInstanceAs (Decidable ('\n' ∉ s.toList))

/-- The line breaks of two texts behind each other are those of both. -/
theorem lineBreaks_append (a b : String) : lineBreaks (a ++ b) = lineBreaks a + lineBreaks b := by
  rw [lineBreaks, String.toList_append, List.count_append]
  rfl

theorem lineBreaks_eq_zero {s : String} : lineBreaks s = 0 ↔ OneLine s := List.count_eq_zero

/-- Two texts stand on one line behind each other if each of them does. -/
@[simp]
theorem oneLine_append {a b : String} : OneLine (a ++ b) ↔ OneLine a ∧ OneLine b := by
  rw [OneLine, String.toList_append, List.mem_append, not_or]
  rfl

theorem oneLine_ofList {cs : List Char} : OneLine (String.ofList cs) ↔ '\n' ∉ cs := by
  rw [OneLine, String.toList_ofList]

/-! ### Names in source text -/

private theorem digitChar_ne_lineBreak : ∀ n < 16, Nat.digitChar n ≠ '\n' := by decide

/-- No line break is among the hexadecimal digits of a number. -/
private theorem lineBreak_notMem_toDigits (n : Nat) : '\n' ∉ Nat.toDigits 16 n := by
  induction n using Nat.strongRecOn with
  | ind n ih =>
    rw [Nat.toDigits_eq_if (by decide)]
    split
    -- A single digit.
    case isTrue hn =>
      exact fun h => digitChar_ne_lineBreak n hn (List.mem_singleton.1 h).symm
    -- The digits in front and the last one.
    case isFalse hn =>
      intro h
      rcases List.mem_append.1 h with h | h
      · exact ih (n / 16) (by omega) h
      · exact digitChar_ne_lineBreak (n % 16) (Nat.mod_lt n (by decide))
          (List.mem_singleton.1 h).symm

/-- No character of a quoted string is a line break. -/
private theorem lineBreak_notMem_quoteChar (c : Char) : '\n' ∉ quoteChar c := by
  unfold quoteChar
  split
  -- All other characters are themselves or their numbers, and the line break is not one of them.
  case h_7 _ hlineBreak _ _ =>
    split
    case isTrue => simpa using lineBreak_notMem_toDigits c.toNat
    case isFalse => exact fun h => hlineBreak (List.mem_singleton.1 h).symm
  all_goals decide

/-- A string literal stands on one line, whatever the string is. -/
@[simp]
theorem oneLine_quote (s : String) : OneLine (quote s) := by
  rw [OneLine, toList_quote]
  simpa using fun c _ => lineBreak_notMem_quoteChar c

/-- The literals of names stand on one line. -/
@[simp]
theorem oneLine_literals (names : List String) : OneLine (literals names) := by
  rw [literals]
  induction names with
  | nil => decide
  | cons name names ih =>
    cases names with
    | nil => simp [String.intercalate_singleton]
    -- Between two literals stand a comma and a blank.
    | cons next names =>
      rw [List.map_cons, List.map_cons, String.intercalate_cons_cons, ← List.map_cons]
      simp only [oneLine_append, oneLine_quote, ih, and_true, true_and]
      decide

/-- The part of an identity that a name makes stands on one line. -/
private theorem oneLine_identityStem (name : List Char) :
    OneLine (String.ofList (identityStem name)) := by
  rw [oneLine_ofList]
  exact fun h => absurd (isIdentifierChar_of_mem_identityStem h) (by decide)

/-- An identity stands on one line if the suffix does, whatever the name is. -/
@[simp]
theorem oneLine_codecIdentity {name suffix : String} :
    OneLine (codecIdentity name suffix) ↔ OneLine suffix := by
  rw [codecIdentity_eq, oneLine_append]
  exact and_iff_right (oneLine_identityStem _)

@[simp]
theorem FieldPlan.oneLine_slot (f : FieldPlan) : OneLine f.slot :=
  oneLine_codecIdentity.2 (by decide)

@[simp]
theorem Scalar.oneLine_expression (s : Scalar) : OneLine s.expression := by
  cases s <;> decide

@[simp]
theorem Shape.oneLine_codecType (s : Shape) : OneLine s.codecType := by
  cases s <;> decide

namespace CodecRef

/-- The expression of a shared codec stands on one line if the codec does. -/
private theorem oneLine_sharedHandle {codec : String} (h : OneLine codec) :
    OneLine (sharedHandle codec) := by
  unfold sharedHandle
  simp only [oneLine_append, h, and_true]
  decide

/-- The expression of an owned codec stands on one line if its type and arguments do. -/
private theorem oneLine_ownedHandle {codecType arguments : String} (htype : OneLine codecType)
    (harguments : OneLine arguments) : OneLine (ownedHandle codecType arguments) := by
  unfold ownedHandle
  simp only [oneLine_append, htype, harguments, and_true]
  decide

/-- The expression for a codec stands on one line, whatever the names in the reference are. -/
@[simp]
theorem oneLine_handle (c : CodecRef) : OneLine c.handle := by
  induction c with
  | scalar s =>
    refine oneLine_sharedHandle (oneLine_append.2 ⟨s.oneLine_expression, by decide⟩)
  | generated name => exact oneLine_ownedHandle (by decide) (oneLine_quote name)
  | sequence shape element ih => exact oneLine_ownedHandle shape.oneLine_codecType ih
  | textKeyMap value ih =>
    exact oneLine_ownedHandle (by decide) (oneLine_append.2 ⟨by decide, ih⟩)
  -- Keys and values have their expressions next to each other.
  | parsedKeyMap key value ihk ihv =>
    unfold handle
    refine oneLine_ownedHandle (by decide) ?_
    simp only [oneLine_append, ihk, ihv, and_true]
    decide
  | pairedMap key value ihk ihv =>
    unfold handle
    refine oneLine_ownedHandle (by decide) ?_
    simp only [oneLine_append, ihk, ihv, and_true, true_and]
    decide
  | _ => exact oneLine_sharedHandle (by decide)

end CodecRef

namespace FieldPlan

variable (f : FieldPlan)

/-- The expression for the codec of a field stands on one line. -/
@[simp]
theorem oneLine_codecExpression : OneLine f.codecExpression := by
  unfold codecExpression
  split
  -- The codec is held in a slot, or a shared one is named.
  case h_3 => decide
  all_goals
    simp only [oneLine_append, Scalar.oneLine_expression, oneLine_slot, true_and, and_true]
    decide

/-- The expression for the value of a field stands on one line. -/
@[simp]
theorem oneLine_valueExpression : OneLine f.valueExpression := by
  unfold valueExpression
  dsimp only
  split
  all_goals
    simp only [oneLine_append, oneLine_quote, Scalar.oneLine_expression, and_true]
    decide

/-- The expression that reads a field stands on one line. -/
@[simp]
theorem oneLine_readExpression : OneLine f.readExpression := by
  unfold readExpression
  dsimp only
  split
  all_goals
    simp only [oneLine_append, oneLine_quote, oneLine_codecExpression, Scalar.oneLine_expression,
      true_and, and_true]
    decide

/-- The statement that writes a field stands on one line. -/
private theorem oneLine_printStatement : OneLine f.printStatement := by
  unfold printStatement
  simp only [oneLine_append, oneLine_quote, oneLine_codecExpression, oneLine_valueExpression,
    and_true]
  decide

/-- The statement that reads a field stands on one line. -/
private theorem oneLine_readStatement : OneLine f.readStatement := by
  unfold readStatement
  simp only [oneLine_append, oneLine_quote, oneLine_readExpression, and_true]
  decide

end FieldPlan

/-! ### Lines of listings -/

/-- The number of lines that a line of source text takes up. -/
def SourceLine.lines : SourceLine → Nat
  | .blank => 1
  | .text _ content => lineBreaks content + 1

/-- The text of a line has as many line breaks as the line takes up lines. -/
private theorem SourceLine.lineBreaks_render (line : SourceLine) :
    lineBreaks line.render = line.lines := by
  have hbreak : lineBreaks "\n" = 1 := by decide
  cases line with
  -- A blank line is only its break; any other has one behind its content.
  | blank => exact hbreak
  | text level content =>
    -- The indentation is made of blanks.
    have hindent : lineBreaks (String.ofList (List.replicate (4 * level) ' ')) = 0 := by
      rw [lineBreaks_eq_zero, oneLine_ofList]
      exact fun h => absurd (List.eq_of_mem_replicate h) (by decide)
    rw [render, lineBreaks_append, lineBreaks_append, hindent, hbreak, Nat.zero_add]
    rfl

namespace Listing

/-- The number of lines that a listing takes up. -/
def lines (l : Listing) : Nat := (l.map SourceLine.lines).sum

/-- The text of a listing has as many line breaks as the listing takes up lines. -/
private theorem lineBreaks_render (l : Listing) : lineBreaks l.render = l.lines := by
  induction l with
  | nil => decide
  | cons first rest ih =>
    rw [render, List.map_cons, String.join_cons, lineBreaks_append, SourceLine.lineBreaks_render,
      ← render, ih]
    rfl

section

variable {l m : Listing} {head foot content : String}

/-- Two listings behind each other take up the lines of both. -/
@[simp]
theorem lines_append : (l ++ m).lines = l.lines + m.lines := by
  rw [lines, List.map_append, List.sum_append]
  rfl

private theorem lines_line : (line content).lines = lineBreaks content + 1 := rfl

@[simp]
theorem lines_gap : gap.lines = 1 := rfl

/-- A listing takes up the same lines further in. -/
@[simp]
theorem lines_nest : l.nest.lines = l.lines := by
  have hdeeper : SourceLine.lines ∘ SourceLine.deeper = SourceLine.lines := by
    funext line
    cases line <;> rfl
  rw [lines, nest, List.map_map, hdeeper]
  rfl

theorem lines_of_oneLine (h : OneLine content) : (line content).lines = 1 := by
  rw [lines_line, lineBreaks_eq_zero.2 h]

/-- A block takes up two lines around its listing. -/
theorem lines_block (hhead : OneLine head) (hfoot : OneLine foot) :
    (block head l foot).lines = l.lines + 2 := by
  rw [block, lines_append, lines_append, lines_nest, lines_of_oneLine hhead, lines_of_oneLine hfoot]
  omega

/-- Listings of one line each take up as many lines as there are. -/
private theorem lines_flatMap {α : Type} (items : List α) {f : α → Listing}
    (h : ∀ a, (f a).lines = 1) :
    lines (items.flatMap f) = items.length := by
  induction items with
  | nil => rfl
  | cons a items ih => rw [List.flatMap_cons, lines_append, h, ih, List.length_cons, Nat.add_comm]

end

end Listing

/-! ### Lines of the source for a plan -/

/-- What the number of lines for a plan depends on. -/
inductive SourceShape where
  | enum
  | object (fields held : Nat) (inherits : Bool)
deriving DecidableEq, Repr

namespace SourceShape

/-- The lines that a structure with some members takes up, or the expression that makes it. -/
def structLines (held : Nat) : Nat := if held = 0 then 1 else held + 2

/-- The lines for a plan of some shape.  Each field has a statement to write it and one to read it,
and so has the superclass. -/
def lines : SourceShape → Nat
  | enum => 5
  | object fields held inherits =>
    48 + 2 * structLines held + 2 * (fields + inherits.toNat)

end SourceShape

/-- The shape of a plan. -/
def CodecPlan.sourceShape : CodecPlan → SourceShape
  | .object p => .object p.fields.length p.heldFields.length p.superclass.isSome
  | .enum _ => .enum

open Listing (line block gap nest)

/-- The comment in front of a codec: the name of the type stands in it as it is. -/
theorem lines_comment (typeName : String) :
    (line ("/// Codec for `" ++ typeName ++ "`.")).lines = lineBreaks typeName + 1 := by
  have hhead : lineBreaks "/// Codec for `" = 0 := by decide
  have hfoot : lineBreaks "`." = 0 := by decide
  rw [Listing.lines_line, lineBreaks_append, lineBreaks_append, hhead, hfoot, Nat.zero_add]

namespace ObjectPlan

open SourceShape

variable (p : ObjectPlan) {identity : String}

/-- The lines of a block with a line for each field whose codec is held. -/
theorem lines_heldBlock {head foot : String} (hhead : OneLine head) (hfoot : OneLine foot)
    {content : FieldPlan × CodecRef → String} (h : ∀ held, OneLine (content held)) :
    (block head (p.heldFields.flatMap fun held => line (content held)) foot).lines =
      p.heldFields.length + 2 := by
  rw [Listing.lines_block hhead hfoot,
    Listing.lines_flatMap _ fun held => Listing.lines_of_oneLine (h held)]

/-- The lines of a structure: a comment with the name of the type, an attribute and the members. -/
private theorem lines_structSource (h : OneLine identity) :
    (p.structSource identity).lines =
      lineBreaks p.typeName + 2 + structLines p.heldFields.length := by
  unfold structSource structLines
  rw [Listing.lines_append, Listing.lines_append, lines_comment,
    Listing.lines_of_oneLine (by decide)]
  congr 1
  simp only [List.isEmpty_iff, ← List.length_eq_zero_iff]
  -- Without members the structure is a single line, and otherwise a block.
  split
  case isTrue =>
    refine Listing.lines_of_oneLine ?_
    simp only [oneLine_append, h, and_true]
    decide
  case isFalse =>
    refine p.lines_heldBlock ?_ (by decide) fun held => ?_
    · simp only [oneLine_append, h, and_true]
      decide
    · simp only [oneLine_append, FieldPlan.oneLine_slot, true_and]
      decide

/-- The lines of the initializer of a structure. -/
private theorem lines_newSource (h : OneLine identity) :
    (p.newSource identity).lines = structLines p.heldFields.length := by
  unfold newSource structLines
  simp only [List.isEmpty_iff, ← List.length_eq_zero_iff]
  split
  case isTrue => exact Listing.lines_of_oneLine h
  case isFalse =>
    refine p.lines_heldBlock ?_ (by decide) fun held => ?_
    · simp only [oneLine_append, h, true_and]
      decide
    · simp only [oneLine_append, FieldPlan.oneLine_slot, CodecRef.oneLine_handle, true_and,
        and_true]
      decide

/-- The lines of the constants and the constructor of a codec. -/
private theorem lines_implSource (h : OneLine identity) :
    (p.implSource identity).lines = 8 + structLines p.heldFields.length := by
  unfold implSource
  -- The parts of it that hold names stand on one line each.
  have hhead : OneLine ("impl " ++ identity ++ " \x7b") := by
    simp only [oneLine_append, h, and_true]
    decide
  have hname : OneLine
      ("pub const TYPE_NAME: &'static str = " ++ Text.quote p.typeName ++ ";") := by
    simp only [oneLine_append, oneLine_quote, and_true]
    decide
  have hsubtypes : OneLine
      ("const SUBTYPES: &'static [&'static str] = &[" ++ literals p.subtypes ++ "];") := by
    simp only [oneLine_append, oneLine_literals, and_true]
    decide
  simp (disch := first | decide | assumption) only [Listing.lines_append, Listing.lines_block,
    Listing.lines_of_oneLine, Listing.lines_gap, p.lines_newSource h]
  omega

/-- A function with a short body takes up four lines. -/
private theorem lines_shortFunction {head body : String} (hhead : OneLine head)
    (hbody : OneLine body) :
    (shortFunction head body).lines = 4 := by
  have hopen : OneLine (head ++ " \x7b") := oneLine_append.2 ⟨hhead, by decide⟩
  rw [shortFunction, Listing.lines_append, Listing.lines_block hopen (by decide),
    Listing.lines_of_oneLine hbody, Listing.lines_gap]

/-- The lines of statements, one for the superclass and one for each field. -/
theorem lines_statements {inherited : String → String} {own : FieldPlan → String}
    (hinherited : ∀ name, OneLine (inherited name)) (hown : ∀ f, OneLine (own f)) :
    Listing.lines ((p.superclass.toList.flatMap fun name => line (inherited name)) ++
      (p.fields.flatMap fun f => line (own f))) = p.superclass.isSome.toNat + p.fields.length := by
  rw [Listing.lines_append,
    Listing.lines_flatMap _ fun name => Listing.lines_of_oneLine (hinherited name),
    Listing.lines_flatMap _ fun f => Listing.lines_of_oneLine (hown f)]
  cases p.superclass <;> rfl

/-- The lines of the function that writes the fields. -/
private theorem lines_printSource :
    p.printSource.lines = 9 + (p.superclass.isSome.toNat + p.fields.length) := by
  have hinherited (name : String) : OneLine ("count = cx.object_codec(" ++ Text.quote name ++
      ")?.print_fields(cx, out, src, count)?;") := by
    simp only [oneLine_append, oneLine_quote, and_true]
    decide
  unfold printSource
  rw [Listing.lines_append, Listing.lines_append, Listing.lines_block (by decide) (by decide),
    Listing.lines_append, p.lines_statements hinherited FieldPlan.oneLine_printStatement,
    Listing.lines_nest, Listing.lines_append]
  -- The parameters are called otherwise if there is nothing to write.
  split
  all_goals
    simp (disch := decide) only [Listing.lines_append, Listing.lines_of_oneLine]
    omega

/-- The lines of the function that reads the fields. -/
private theorem lines_readSource :
    p.readSource.lines = 8 + (p.superclass.isSome.toNat + p.fields.length) := by
  have hinherited (name : String) : OneLine ("cx.object_codec(" ++ Text.quote name ++
      ")?.read_fields(cx, members, dst)?;") := by
    simp only [oneLine_append, oneLine_quote, and_true]
    decide
  unfold readSource
  dsimp only
  rw [Listing.lines_append, Listing.lines_append, Listing.lines_block (by decide) (by decide),
    Listing.lines_append, p.lines_statements hinherited FieldPlan.oneLine_readStatement,
    Listing.lines_nest]
  -- A class that has no instances reads differently, in as many lines.
  split
  all_goals
    simp (disch := decide) only [Listing.lines_append, Listing.lines_of_oneLine]
    omega

/-- The lines of the implementation of a codec. -/
private theorem lines_codecSource (h : OneLine identity) :
    (p.codecSource identity).lines =
      36 + 2 * (p.superclass.isSome.toNat + p.fields.length) := by
  have hhead : OneLine ("impl rt::FieldCodec for " ++ identity ++ " \x7b") := by
    simp only [oneLine_append, h, and_true]
    decide
  have hanswer : OneLine (if p.isAbstract then "true" else "false") := by
    split <;> decide
  unfold codecSource
  simp (disch := first | decide | assumption) only [Listing.lines_block, Listing.lines_append,
    lines_shortFunction, lines_printSource, lines_readSource, Listing.lines_gap]
  omega

/-- The source of a class has the lines of its shape and the breaks in the name of its type. -/
private theorem lines_source (h : OneLine identity) :
    (p.source identity).lines =
      (CodecPlan.object p).sourceShape.lines + lineBreaks p.typeName := by
  rw [source, Listing.lines_append, Listing.lines_append, Listing.lines_append,
    Listing.lines_append, lines_structSource _ h, lines_implSource _ h, lines_codecSource _ h,
    Listing.lines_gap, CodecPlan.sourceShape, SourceShape.lines]
  omega

end ObjectPlan

/-- The source of an enum has the lines of its shape and the breaks in the name of its type. -/
private theorem EnumPlan.lines_source (p : EnumPlan) {identity : String} (h : OneLine identity) :
    (p.source identity).lines =
      (CodecPlan.enum p).sourceShape.lines + lineBreaks p.typeName := by
  -- The head and the body hold the identity and literals only.
  have hhead : OneLine ("pub fn " ++ identity ++ "() -> rt::EnumCodec \x7b") := by
    simp only [oneLine_append, h, and_true]
    decide
  have hbody : OneLine ("rt::EnumCodec::new(" ++ Text.quote p.typeName ++ ", &[" ++
      literals p.variants ++ "])") := by
    simp only [oneLine_append, oneLine_quote, oneLine_literals, and_true]
    decide
  unfold EnumPlan.source
  rw [Listing.lines_append, Listing.lines_append, lines_comment,
    Listing.lines_block hhead (by decide), Listing.lines_of_oneLine hbody,
    Listing.lines_of_oneLine (by decide), CodecPlan.sourceShape, SourceShape.lines]
  omega

/-- The source for a plan takes up as many lines as its shape says, and one more for each line break
in the name of the type. -/
private theorem CodecPlan.lines_source (p : CodecPlan) {identity : String} (h : OneLine identity) :
    (p.sourceUnder identity).lines = p.sourceShape.lines + lineBreaks p.typeName := by
  cases p with
  | object p => exact p.lines_source h
  | enum p => exact p.lines_source h

/-! ### Lines of emitted code -/

namespace Naming

variable {n : Naming}

/-- The identity that a naming gives a type stands on one line. -/
private theorem oneLine_identity (hsuffix : OneLine n.suffix)
    (hidentities : ∀ e ∈ n.identities, OneLine e.2) (typeName : String) :
    OneLine (n.identity typeName) := by
  unfold identity
  cases h : n.identities.lookup typeName with
  -- A name without an identity of its own gets one made of the name and the suffix.
  | none => exact oneLine_codecIdentity.2 hsuffix
  | some identity =>
    obtain ⟨before, behind, heq, -⟩ := List.lookup_eq_some_iff.1 h
    exact hidentities (typeName, identity) (heq ▸ by simp)

/-- The code for a plan has the lines of its shape and the breaks in the name of its type. -/
theorem lineBreaks_code (hsuffix : OneLine n.suffix)
    (hidentities : ∀ e ∈ n.identities, OneLine e.2) (p : CodecPlan) :
    lineBreaks (n.emit p).code = p.sourceShape.lines + lineBreaks p.typeName := by
  rw [emit, p.source_eq_sourceUnder, Listing.lineBreaks_render,
    p.lines_source (oneLine_identity hsuffix hidentities p.typeName)]

/-- If suffix and identities have no line breaks, the number of lines that are emitted for a plan
is determined by its shape and by the line breaks in the name of its type, whatever characters the
names of its fields, members, subtypes, superclass and variants have. -/
theorem lineBreaks_emit (hsuffix : lineBreaks n.suffix = 0)
    (hidentities : ∀ e ∈ n.identities, lineBreaks e.2 = 0) (p : CodecPlan) :
    lineBreaks (n.emit p).code = p.sourceShape.lines + lineBreaks p.typeName :=
  lineBreaks_code (lineBreaks_eq_zero.1 hsuffix)
    (fun e he => lineBreaks_eq_zero.1 (hidentities e he)) p

/-- A class with line breaks in every name but its own. -/
def brokenNames (typeName : String) : CodecPlan :=
  .object ⟨typeName, true, some "a\nb", ["c\nd", "\n"],
    [⟨"e\nf", "g\nh", false, .nested (.generated "i\nj")⟩, ⟨"k\nl", "\n", true, .string⟩]⟩

/-- Names with line breaks in every place make one further line, that of the comment. -/
theorem lineBreaks_emit_brokenNames :
    lineBreaks "_JsonCodec" = 0 ∧ (∀ e ∈ [("n$d", "n_d_2_JsonCodec")], lineBreaks e.2 = 0) ∧
      lineBreaks ((Naming.mk "_type_" "_JsonCodec" [("n$d", "n_d_2_JsonCodec")]).emit
        (brokenNames "n$d")).code = 60 := by
  have hsuffix : lineBreaks "_JsonCodec" = 0 := by decide
  have hidentities : ∀ e ∈ [("n$d", "n_d_2_JsonCodec")], lineBreaks e.2 = 0 := by decide
  refine ⟨hsuffix, hidentities, ?_⟩
  rw [lineBreaks_emit hsuffix hidentities]
  decide

/-- The name of a type stands in the comment as it is: with a line break in it, the code has one
more line than that of a plan of the same shape. -/
theorem not_lineBreaks_emit :
    lineBreaks "_JsonCodec" = 0 ∧
      (CodecPlan.enum ⟨"Light Bulb", []⟩).sourceShape =
        (CodecPlan.enum ⟨"Light\nBulb", []⟩).sourceShape ∧
      lineBreaks ((Naming.mk "_type_" "_JsonCodec" []).emit (.enum ⟨"Light Bulb", []⟩)).code = 5 ∧
      lineBreaks ((Naming.mk "_type_" "_JsonCodec" []).emit (.enum ⟨"Light\nBulb", []⟩)).code =
        6 := by
  have hsuffix : OneLine "_JsonCodec" := by decide
  refine ⟨by decide, rfl, ?_, ?_⟩
  · rw [lineBreaks_code hsuffix (List.forall_mem_nil _)]
    decide
  · rw [lineBreaks_code hsuffix (List.forall_mem_nil _)]
    decide

end Naming

/-! ### Lines of a generated unit -/

/-- An identity that is first free stands on one line if the suffix does. -/
private theorem Registry.IsFirstFree.oneLine {r : Registry} {typeName suffix identity : String}
    (h : r.IsFirstFree typeName suffix identity) (hsuffix : OneLine suffix) : OneLine identity := by
  cases h with
  | plain => exact oneLine_codecIdentity.2 hsuffix
  | @numbered n =>
    -- The number behind the name has digits only.
    have hnumber : OneLine (Decimal.natText n) := by
      rw [Decimal.natText, oneLine_ofList]
      intro h
      exact absurd (Nat.isDigit_of_mem_toDigits (by decide) (by decide) h) (by decide)
    -- Between the name and the number stands an underscore.
    unfold numberedIdentity
    simp only [oneLine_append, oneLine_codecIdentity, hnumber, hsuffix, and_true]
    decide

namespace GeneratorConfig

variable {g : TypeGraph} {c : GeneratorConfig} {roots : List TypeId} {u : GeneratedUnit}

/-- The identities that types are registered under stand on one line if the suffix does. -/
private theorem oneLine_of_mem_records (h : OneLine c.codecSuffix) :
    ∀ r ∈ (c.walk g roots).registry.records, OneLine r.identity := by
  refine walk_keeps (P := fun _ s => ∀ r ∈ s.registry.records, OneLine r.identity) (fun h => h)
    ?_ (fun _ h => h) (fun hs r hr => hs r (WalkState.records_leave ▸ hr)) fun r hr => nomatch hr
  intro _ id _ s _ hs r hr
  -- What is registered now has the first free identity of its name, and the others keep theirs.
  -- A type that is registered already changes nothing.
  have hr : r ∈ (s.registry.register id (g.name id) _).2.records := hr
  unfold Registry.register at hr
  split at hr
  case isTrue => exact hs r hr
  case isFalse =>
    rcases List.mem_append.1 hr with hr | hr
    · exact hs r hr
    · rw [List.mem_singleton.1 hr]
      exact (s.registry.isFirstFree_freshIdentity _ _).oneLine h

/-- The lines of the codecs in a unit depend on no names but those of types. -/
theorem lineBreaks_of_generate (hsuffix : lineBreaks c.codecSuffix = 0)
    (hu : c.generate g roots = .ok u) :
    (u.sources.map fun s => lineBreaks s.code) =
      u.plans.map fun p => p.sourceShape.lines + lineBreaks p.typeName := by
  have hsuffix : OneLine c.codecSuffix := lineBreaks_eq_zero.1 hsuffix
  -- The identities of a unit are the first free ones, which have no line breaks.
  have hidentities : ∀ e ∈ u.identities, OneLine e.2 := by
    intro e he
    rw [identities_eq_of_generate hu] at he
    obtain ⟨r, hr, rfl⟩ := List.mem_map.1 ((Registry.identities_perm _).mem_iff.1 he)
    exact oneLine_of_mem_records hsuffix r hr
  -- Each source is the code for its plan, so the lines are counted one by one.
  rw [sources_eq_of_generate hu, List.map_map]
  exact List.map_congr_left fun p _ => Naming.lineBreaks_code hsuffix hidentities p

end GeneratorConfig

end GraphCodec
