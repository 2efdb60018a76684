import GraphCodec.Emission.CodecSource

/-!
# Source of a module

A module holds the codecs of one generation: the name of the member that carries types, the names of
the types, the source of every codec, and the functions that put the codecs into a table.
-/

namespace GraphCodec

open Listing

/-- The source for one plan with the names that go with it. -/
structure GeneratedSource where
  typeName : String
  identity : String
  code : String
deriving DecidableEq, Repr

namespace Naming

/-- Emits the source for a plan. -/
def emit (n : Naming) (p : CodecPlan) : GeneratedSource :=
  ⟨p.typeName, n.identity p.typeName, (p.source n).render⟩

/-- The lines in front of the codecs. -/
def header (n : Naming) (plans : List CodecPlan) : Listing :=
  line "// @generated by tessel. Do not edit." ++ gap ++
  line "use tessel_runtime as rt;" ++ gap ++
  line "/// Member carrying the concrete type of a polymorphic value." ++
  line ("pub const TAG_MEMBER: &str = " ++ Text.quote n.tagMember ++ ";") ++ gap ++
  line "/// Types with a generated codec, in generation order." ++
  block "pub const CODEC_NAMES: &[&str] = &["
    (plans.flatMap fun p => line (Text.quote p.typeName ++ ",")) "];"

/-- The statement that puts the codec of a plan into a table. -/
def registerStatement (n : Naming) : CodecPlan → String
  | .object p => "table.register_object(Box::new(" ++ n.identity p.typeName ++ "::new()));"
  | .enum p =>
    "table.register(" ++ Text.quote p.typeName ++ ", Box::new(" ++ n.identity p.typeName ++ "()));"

/-- The function that puts all codecs into a table. -/
def registerSource (n : Naming) (plans : List CodecPlan) : Listing :=
  line "/// Register every codec of this unit." ++
  if plans.isEmpty then line "pub fn register_all(_table: &mut rt::CodecTable) \x7b\x7d"
  else
    block "pub fn register_all(table: &mut rt::CodecTable) \x7b"
      (plans.flatMap fun p => line (n.registerStatement p)) "\x7d"

/-- The function that makes a table of the codecs. -/
def tableSource : Listing :=
  line "/// A table holding exactly this unit's codecs." ++
  block "pub fn codec_table() -> rt::CodecTable \x7b"
    (line "let mut table = rt::CodecTable::with_tag_member(TAG_MEMBER);" ++
      line "register_all(&mut table);" ++
      line "table") "\x7d"

/-- The source of the module for some plans. -/
def moduleSource (n : Naming) (plans : List CodecPlan) : Listing :=
  n.header plans ++ (plans.flatMap fun p => gap ++ p.source n) ++ gap ++
    n.registerSource plans ++ gap ++ tableSource

end Naming

end GraphCodec
