import GraphCodec.Json.Basic
import GraphCodec.Binary.Shortest
import GraphCodec.Decimal.Layout

/-!
# Writing JSON

`Json.write` puts the text of a value in front of a rest, without blanks; `Json.render` is the text
alone.  `Json.writePretty` spreads it over lines, two spaces for each level.

In a string, the quote, the backslash and the control characters below U+0020 are escaped and
nothing else is.  A floating-point number is written with the fewest digits that read back.
-/

namespace GraphCodec.Json

/-- A lower-case hexadecimal digit. -/
def hexDigit (n : Nat) : Char := Nat.digitChar (n % 16)

/-- The text of one character inside a string. -/
def escape (c : Char) : List Char :=
  match c with
  | '"' => ['\\', '"']
  | '\\' => ['\\', '\\']
  | '\x08' => ['\\', 'b']
  | '\x0c' => ['\\', 'f']
  | '\n' => ['\\', 'n']
  | '\r' => ['\\', 'r']
  | '\t' => ['\\', 't']
  | c =>
    if c.toNat < 0x20 then ['\\', 'u', '0', '0', hexDigit (c.toNat / 16), hexDigit c.toNat]
    else [c]

/-- Puts a quoted and escaped string in front of a rest. -/
def writeString (s : String) (rest : List Char) : List Char :=
  '"' :: (s.toList.flatMap escape ++ '"' :: rest)

/-- Doubles are written positionally from `0.00001` up to sixteen whole digits. -/
def doubleLayout : DecimalLayout := ⟨-5, 15⟩

/-- Singles are written positionally from `0.000001` up to thirteen whole digits. -/
def singleLayout : DecimalLayout := ⟨-6, 12⟩

/-- The text of a number. -/
def Number.text : Number → String
  | .integer i => Decimal.intText i
  | .double x => doubleLayout.render x.negative x.shortest
  | .single x => singleLayout.render x.negative x.shortest

mutual

/-- Puts the text of a value in front of a rest. -/
def write (j : Json) (rest : List Char) : List Char :=
  match j with
  | null => "null".toList ++ rest
  | bool true => "true".toList ++ rest
  | bool false => "false".toList ++ rest
  | number n => n.text.toList ++ rest
  | string s => writeString s rest
  | array [] => '[' :: ']' :: rest
  | array (j :: items) => '[' :: j.write (writeItems items (']' :: rest))
  | object [] => '{' :: '}' :: rest
  | object ((name, j) :: members) =>
    '{' :: writeString name (':' :: j.write (writeMembers members ('}' :: rest)))

/-- Puts the elements after the first, each behind a comma, in front of a rest. -/
def writeItems (items : List Json) (rest : List Char) : List Char :=
  match items with
  | [] => rest
  | j :: items => ',' :: j.write (writeItems items rest)

/-- Puts the members after the first, each behind a comma, in front of a rest. -/
def writeMembers (members : List (String × Json)) (rest : List Char) : List Char :=
  match members with
  | [] => rest
  | (name, j) :: members =>
    ',' :: writeString name (':' :: j.write (writeMembers members rest))

end

/-- The text of a value, without blanks. -/
def render (j : Json) : String := String.ofList (j.write [])

/-- Starts a new line at a level of nesting. -/
def writeBreak (level : Nat) (rest : List Char) : List Char :=
  '\n' :: (List.replicate (2 * level) ' ' ++ rest)

mutual

/-- Puts the text of a value, spread over lines, in front of a rest. -/
def writePretty (level : Nat) (j : Json) (rest : List Char) : List Char :=
  match j with
  | array (j :: items) =>
    '[' :: writeBreak (level + 1) (j.writePretty (level + 1)
      (writePrettyItems (level + 1) items (writeBreak level (']' :: rest))))
  | object ((name, j) :: members) =>
    '{' :: writeBreak (level + 1) (writeString name (':' :: ' ' :: j.writePretty (level + 1)
      (writePrettyMembers (level + 1) members (writeBreak level ('}' :: rest)))))
  | j => j.write rest

/-- Puts the elements after the first, each on a line of its own, in front of a rest. -/
def writePrettyItems (level : Nat) (items : List Json) (rest : List Char) : List Char :=
  match items with
  | [] => rest
  | j :: items =>
    ',' :: writeBreak level (j.writePretty level (writePrettyItems level items rest))

/-- Puts the members after the first, each on a line of its own, in front of a rest. -/
def writePrettyMembers (level : Nat) (members : List (String × Json)) (rest : List Char) :
    List Char :=
  match members with
  | [] => rest
  | (name, j) :: members =>
    ',' :: writeBreak level (writeString name (':' :: ' ' :: j.writePretty level
      (writePrettyMembers level members rest)))

end

/-- The text of a value, one element or member a line. -/
def renderPretty (j : Json) : String := String.ofList (j.writePretty 0 [])

end GraphCodec.Json
