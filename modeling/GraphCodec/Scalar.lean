import GraphCodec.Value

/-!
# Scalar kinds

The kinds of primitive values that have a codec, and the value of a primitive field that is unset.
-/

namespace GraphCodec

/-- The kinds of primitive values that have a codec. -/
inductive Scalar where
  | boolean
  | byte
  | char
  | short
  | int
  | long
  | float
  | double
deriving DecidableEq, Repr

namespace Scalar

/-- All scalar kinds. -/
def all : List Scalar := [boolean, byte, char, short, int, long, float, double]

/-- The name of a kind. -/
def name : Scalar → String
  | boolean => "boolean"
  | byte => "byte"
  | char => "char"
  | short => "short"
  | int => "int"
  | long => "long"
  | float => "float"
  | double => "double"

/-- The kind of this name. -/
def ofName? (s : String) : Option Scalar := all.find? (·.name == s)

/-- The value of an unset primitive field. -/
def zero : Scalar → Value
  | boolean => .boolean false
  | byte => .byte 0
  | char => .char '\x00'
  | short => .short 0
  | int => .int 0
  | long => .long 0
  | float => .float (Binary.zero binary32)
  | double => .double (Binary.zero binary64)

/-- The value itself, or the zero of the kind in place of null. -/
def orZero (s : Scalar) (v : Value) : Value := if v.isNull then s.zero else v

end Scalar

/-- The first character of a text; an empty text has the character zero. -/
def firstChar (s : String) : Char := s.toList.headD '\x00'

end GraphCodec
