import GraphCodec.Types.Declaration

/-!
# Type expressions

A type expression names a type of a graph: the name of a declared type, with type arguments between
angle brackets if it takes any, and a pair of square brackets for each level of arrays around it.
-/

namespace GraphCodec

/-- A type expression. -/
inductive TypeExpr where
  /-- A name, its type arguments, and the number of levels of arrays around it. -/
  | mk (path : String) (arguments : List TypeExpr) (dims : Nat)
deriving Repr

namespace TypeExpr

/-- The bytes of a text from a first one up to the one before a last one. -/
structure Span where
  start : Nat
  stop : Nat
deriving DecidableEq, Repr

/-- The text of a span in messages. -/
def Span.text (s : Span) : String :=
  Decimal.natText s.start ++ ".." ++ Decimal.natText s.stop

/-- The tokens of type expressions. -/
inductive Token where
  | path (text : String)
  | less
  | greater
  | comma
  | leftBracket
  | rightBracket
deriving DecidableEq, Repr

/-- What a token is called in messages. -/
def Token.describe : Token → String
  | path _ => "a type name"
  | less => "`<`"
  | greater => "`>`"
  | comma => "`,`"
  | leftBracket => "`[`"
  | rightBracket => "`]`"

/-- What is wrong with a type expression. -/
inductive Error where
  | invalidCharacter (span : Span)
  | expected (token : Token) (span : Span)
  | trailing (token : Token) (span : Span)
  | unknownType (path : String)
  | declaration (e : DeclarationError)
deriving DecidableEq, Repr

/-- The message of an error. -/
def Error.message : Error → String
  | invalidCharacter span => "unexpected character at " ++ span.text
  | expected token span => "expected " ++ token.describe ++ " at " ++ span.text
  | trailing token span => "unexpected " ++ token.describe ++ " at " ++ span.text
  | unknownType path => "unknown type `" ++ path ++ "`"
  | declaration e => e.message

end TypeExpr

end GraphCodec
