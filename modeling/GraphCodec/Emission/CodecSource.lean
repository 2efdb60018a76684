import GraphCodec.Codec.Plan
import GraphCodec.Emission.Handle
import GraphCodec.Emission.Listing
import GraphCodec.Generation.Identity

/-!
# Source of codecs

The source that is emitted for the plan of one type: a function that makes the codec of an enum, or
a structure that holds the codecs of the fields of a class, with the functions that write and read
the fields.
-/

namespace GraphCodec

open Listing

/-- How codecs are named in emitted source. -/
structure Naming where
  /-- The member that carries the type of a value. -/
  tagMember : String
  suffix : String
  /-- The identities of types that have been given one. -/
  identities : List (String × String)
deriving DecidableEq, Repr

/-- The identity of the codec of a type. -/
def Naming.identity (n : Naming) (typeName : String) : String :=
  (n.identities.lookup typeName).getD (codecIdentity typeName n.suffix)

/-- String literals with commas between them. -/
def literals (names : List String) : String := String.intercalate ", " (names.map Text.quote)

namespace FieldPlan

/-- The codec of a field that is held in the structure. -/
def heldCodec? (f : FieldPlan) : Option CodecRef :=
  match f.encoding with
  | .nested c => some c
  | _ => none

/-- The name in the structure for the codec of a field. -/
def slot (f : FieldPlan) : String := codecIdentity f.name "_codec"

/-- The expression for the codec of a field. -/
def codecExpression (f : FieldPlan) : String :=
  match f.encoding with
  | .primitive s => s.expression ++ ".codec()"
  | .boxed s => s.expression ++ ".codec()"
  | .string => "&rt::STRING"
  | .nested _ => "&*self." ++ f.slot

/-- The expression for the value of a field of `src`; a field that is never null has a value in
every case. -/
def valueExpression (f : FieldPlan) : String :=
  let value := "src.get(" ++ Text.quote f.name ++ ")"
  match f.encoding.primitive? with
  | some s => "Some(" ++ value ++ ".unwrap_or(" ++ s.expression ++ ".zero()))"
  | none => value

/-- The statement that writes a field. -/
def printStatement (f : FieldPlan) : String :=
  "count = rt::print_field(cx, out, " ++ f.codecExpression ++ ", " ++ Text.quote f.wireName ++
    ", " ++ f.valueExpression ++ ", count)?;"

/-- The expression for what is read for a field. -/
def readExpression (f : FieldPlan) : String :=
  let read := "rt::read_field(cx, members, " ++ f.codecExpression ++ ", " ++
    Text.quote f.wireName ++ ")?"
  match f.encoding.primitive? with
  | some s => s.expression ++ ".or_zero(" ++ read ++ ")"
  | none => read

/-- The statement that reads a field into `dst`. -/
def readStatement (f : FieldPlan) : String :=
  "dst.set(" ++ Text.quote f.name ++ ", " ++ f.readExpression ++ ");"

end FieldPlan

namespace ObjectPlan

/-- The fields whose codecs are held in the structure, with these codecs. -/
def heldFields (p : ObjectPlan) : List (FieldPlan × CodecRef) :=
  p.fields.filterMap fun f => f.heldCodec?.map fun c => (f, c)

/-- Whether there is anything to write and read. -/
def hasWork (p : ObjectPlan) : Bool := p.superclass.isSome || !p.fields.isEmpty

/-- The structure that holds the codecs of the fields. -/
def structSource (p : ObjectPlan) (identity : String) : Listing :=
  line ("/// Codec for `" ++ p.typeName ++ "`.") ++
  line "#[allow(non_camel_case_types)]" ++
  if p.heldFields.isEmpty then line ("pub struct " ++ identity ++ ";")
  else
    block ("pub struct " ++ identity ++ " \x7b")
      (p.heldFields.flatMap fun (f, _) => line (f.slot ++ ": rt::CodecHandle,")) "\x7d"

/-- The expression that makes the structure. -/
def newSource (p : ObjectPlan) (identity : String) : Listing :=
  if p.heldFields.isEmpty then line identity
  else
    block (identity ++ " \x7b")
      (p.heldFields.flatMap fun (f, c) => line (f.slot ++ ": " ++ c.handle ++ ",")) "\x7d"

/-- The constants of the structure, and the function that makes it. -/
def implSource (p : ObjectPlan) (identity : String) : Listing :=
  line "#[allow(clippy::new_without_default)]" ++
  block ("impl " ++ identity ++ " \x7b")
    (line ("pub const TYPE_NAME: &'static str = " ++ Text.quote p.typeName ++ ";") ++
      line ("const SUBTYPES: &'static [&'static str] = &[" ++ literals p.subtypes ++ "];") ++
      gap ++
      block "pub fn new() -> Self \x7b" (p.newSource identity) "\x7d") "\x7d"

/-- A function with a body of one line. -/
def shortFunction (head body : String) : Listing :=
  block (head ++ " \x7b") (line body) "\x7d" ++ gap

/-- The function that writes the fields. -/
def printSource (p : ObjectPlan) : Listing :=
  line "fn print_fields(" ++
  nest (line "&self," ++
    if p.hasWork then
      line "cx: &rt::CodecTable," ++ line "out: &mut String," ++ line "src: &rt::Object," ++
        line "mut count: usize,"
    else
      line "_cx: &rt::CodecTable," ++ line "_out: &mut String," ++ line "_src: &rt::Object," ++
        line "count: usize,") ++
  block ") -> Result<usize, rt::CodecError> \x7b"
    ((p.superclass.toList.flatMap fun name =>
        line ("count = cx.object_codec(" ++ Text.quote name ++
          ")?.print_fields(cx, out, src, count)?;")) ++
      (p.fields.flatMap fun f => line f.printStatement) ++
      line "Ok(count)") "\x7d"

/-- The function that reads the fields. -/
def readSource (p : ObjectPlan) : Listing :=
  let unused := if p.hasWork then "" else "_"
  line "fn read_fields(" ++
  nest (line "&self," ++
    line (unused ++ "cx: &rt::CodecTable,") ++
    line (unused ++ "members: &[(String, rt::JsonValue)],") ++
    line (unused ++ "dst: &mut rt::Object,")) ++
  block ") -> Result<(), rt::CodecError> \x7b"
    ((p.superclass.toList.flatMap fun name =>
        line ("cx.object_codec(" ++ Text.quote name ++ ")?.read_fields(cx, members, dst)?;")) ++
      (p.fields.flatMap fun f => line f.readStatement) ++
      line "Ok(())") "\x7d"

/-- The functions of the structure as a codec. -/
def codecSource (p : ObjectPlan) (identity : String) : Listing :=
  block ("impl rt::FieldCodec for " ++ identity ++ " \x7b")
    (shortFunction "fn type_name(&self) -> &str" "Self::TYPE_NAME" ++
      shortFunction "fn is_abstract(&self) -> bool" (if p.isAbstract then "true" else "false") ++
      shortFunction "fn has_subtypes(&self) -> bool" "!Self::SUBTYPES.is_empty()" ++
      shortFunction "fn is_known_subtype(&self, name: &str) -> bool"
        "Self::SUBTYPES.iter().any(|sub| *sub == name)" ++
      p.printSource ++ gap ++ p.readSource) "\x7d"

/-- The source for the plan of a class. -/
def source (p : ObjectPlan) (identity : String) : Listing :=
  p.structSource identity ++ gap ++ p.implSource identity ++ gap ++ p.codecSource identity

end ObjectPlan

/-- The source for the plan of an enum. -/
def EnumPlan.source (p : EnumPlan) (identity : String) : Listing :=
  line ("/// Codec for `" ++ p.typeName ++ "`.") ++
  line "#[allow(non_snake_case)]" ++
  block ("pub fn " ++ identity ++ "() -> rt::EnumCodec \x7b")
    (line ("rt::EnumCodec::new(" ++ Text.quote p.typeName ++ ", &[" ++ literals p.variants ++
      "])")) "\x7d"

/-- The source for a plan. -/
def CodecPlan.source (p : CodecPlan) (n : Naming) : Listing :=
  match p with
  | .object p => p.source (n.identity p.typeName)
  | .enum p => p.source (n.identity p.typeName)

end GraphCodec
