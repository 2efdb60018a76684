import GraphCodec.Scalar

/-!
# Codec references

A `CodecRef` says which codec a position of a type uses.  The codecs of user types are referred to
by name and looked up when they are used, which lets a type refer to itself.
-/

namespace GraphCodec

/-- Which codec to use for one position. -/
inductive CodecRef where
  | scalar (s : Scalar)
  | string
  | date
  | timestamp
  | localDate
  /-- For a position without a declared type. -/
  | any
  /-- The codec of a user type, looked up by name. -/
  | generated (typeName : String)
  | sequence (shape : Shape) (element : CodecRef)
  /-- A map with text keys, which are the names of members. -/
  | textKeyMap (value : CodecRef)
  /-- A map whose keys are written as names of members and parsed when they are read. -/
  | parsedKeyMap (key value : CodecRef)
  /-- A map with any keys, written as two arrays. -/
  | pairedMap (key value : CodecRef)
deriving DecidableEq, Repr

namespace CodecRef

/-- The user types whose codecs a reference reaches, in order of appearance. -/
def generatedNames : CodecRef → List String
  | generated name => [name]
  | sequence _ element => element.generatedNames
  | textKeyMap value => value.generatedNames
  | parsedKeyMap key value => key.generatedNames ++ value.generatedNames
  | pairedMap key value => key.generatedNames ++ value.generatedNames
  | scalar _ | string | date | timestamp | localDate | any => []

/-- Whether one codec serves all positions that refer to it; containers and user types get one for
each position. -/
def isShared : CodecRef → Bool
  | scalar _ | string | date | timestamp | localDate | any => true
  | generated _ | sequence _ _ | textKeyMap _ | parsedKeyMap _ _ | pairedMap _ _ => false

end CodecRef

end GraphCodec
