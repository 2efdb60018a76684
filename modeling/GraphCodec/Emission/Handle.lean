import GraphCodec.Codec.Ref
import GraphCodec.Text.Quoted

/-!
# Codec expressions

The expression that builds the codec of a reference in emitted source.  Names of types stand in it
as string literals.
-/

namespace GraphCodec

/-- The name of a scalar kind in emitted source. -/
def Scalar.title : Scalar → String
  | boolean => "Boolean"
  | byte => "Byte"
  | char => "Char"
  | short => "Short"
  | int => "Int"
  | long => "Long"
  | float => "Float"
  | double => "Double"

/-- The expression for a scalar kind. -/
def Scalar.expression (s : Scalar) : String := "rt::Scalar::" ++ s.title

/-- The type of the codecs of sequences of a shape. -/
def Shape.codecType : Shape → String
  | .array => "ArrayCodec"
  | .list => "ListCodec"
  | .set => "SetCodec"

namespace CodecRef

/-- A handle to a codec that all positions share. -/
def sharedHandle (codec : String) : String := "rt::CodecHandle::Shared(" ++ codec ++ ")"

/-- A handle to a codec of its own, made from some arguments. -/
def ownedHandle (codecType arguments : String) : String :=
  "rt::CodecHandle::owned(rt::" ++ codecType ++ "::new(" ++ arguments ++ "))"

/-- The expression for a handle to the codec of a reference. -/
def handle : CodecRef → String
  | scalar s => sharedHandle (s.expression ++ ".codec()")
  | string => sharedHandle "&rt::STRING"
  | date => sharedHandle "&rt::DATE"
  | timestamp => sharedHandle "&rt::TIMESTAMP"
  | localDate => sharedHandle "&rt::LOCAL_DATE"
  | any => sharedHandle "&rt::ANY"
  | generated name => ownedHandle "GeneratedRef" (Text.quote name)
  | sequence shape element => ownedHandle shape.codecType element.handle
  | textKeyMap value => ownedHandle "StringMapCodec" ("None, " ++ value.handle)
  | parsedKeyMap key value =>
    ownedHandle "StringMapCodec" ("Some(" ++ key.handle ++ "), " ++ value.handle)
  | pairedMap key value => ownedHandle "ObjectMapCodec" (key.handle ++ ", " ++ value.handle)

end CodecRef

end GraphCodec
