import GraphCodec.Text.Unprintable

/-!
# Quoted strings in source text

A string is quoted so that it stands on one line and reads back unambiguously: the quote, the
backslash and the common control characters have short escapes, and every other character that is
not printable is spelled out by its number in braces.
-/

namespace GraphCodec.Text

/-- The text of one character inside quotes. -/
def quoteChar (c : Char) : List Char :=
  match c with
  | '\x00' => ['\\', '0']
  | '\t' => ['\\', 't']
  | '\r' => ['\\', 'r']
  | '\n' => ['\\', 'n']
  | '"' => ['\\', '"']
  | '\\' => ['\\', '\\']
  | c =>
    if isUnprintable c then '\\' :: 'u' :: '{' :: (Nat.toDigits 16 c.toNat ++ ['}'])
    else [c]

/-- A string between quotes. -/
def quote (s : String) : String :=
  String.ofList ('"' :: (s.toList.flatMap quoteChar ++ ['"']))

end GraphCodec.Text
