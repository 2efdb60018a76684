/-!
# Codec identities

The identity of a codec is the identifier that its source is emitted under.  It is made from the
qualified name of the type, in which characters that no identifier has are replaced.
-/

namespace GraphCodec

/-- Whether a character may stand anywhere but at the front of an identifier. -/
def isIdentityChar (c : Char) : Bool := c.isAlphanum

/-- The text of one character of a name in an identity.  An underscore is doubled, to stay apart
from the replacement of other characters. -/
def identityChar (c : Char) : List Char :=
  if c = '_' then ['_', '_'] else if isIdentityChar c then [c] else ['_']

/-- What stands in front of an identity; an identifier does not begin with a digit. -/
def identityGuard (name : List Char) : List Char :=
  match name with
  | c :: _ => if c.isDigit then ['_'] else []
  | [] => []

/-- The identity of the codec of a type, before it is kept apart from others. -/
def codecIdentity (name suffix : String) : String :=
  String.ofList (identityGuard name.toList ++ name.toList.flatMap identityChar) ++ suffix

end GraphCodec
