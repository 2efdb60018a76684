import GraphCodec.Json.SyntaxError

/-!
# Scanning strings

`Quote` is a string that is being scanned, one character at a time, after its opening quote.
A pair of escaped surrogates is one character.  An unpaired surrogate follows the grammar but has
no value: it is the string's `problem`, and scanning goes on.

The four characters after `\u` are counted in bytes of UTF-8, so that an escape is only refused
when four bytes are there; a text that ends earlier is cut off inside a string.
-/

namespace GraphCodec.Json

/-- Where in a string the scanner is. -/
inductive Quote.Phase where
  | plain
  /-- After a backslash. -/
  | escape
  /-- After `\u`: the bytes seen, their value unless one is no hexadecimal digit, and the high
  surrogate escaped just before. -/
  | hex (bytes : Nat) (value : Option Nat) (high : Option Nat)
  /-- After an escaped high surrogate. -/
  | surrogate (high : Nat)
  /-- After a backslash that follows an escaped high surrogate. -/
  | surrogateEscape (high : Nat)
deriving DecidableEq, Repr

/-- A string that is being scanned: its characters so far, last first, and the first problem. -/
structure Quote where
  reversed : List Char
  problem : Option SyntaxError
  phase : Quote.Phase
deriving DecidableEq, Repr

namespace Quote

/-- What one character does to a string. -/
inductive Step where
  | more (q : Quote)
  /-- The string is complete: its content, or its problem. -/
  | closed (content : Except SyntaxError String)
  | fault (f : Fault)

/-- The string directly after its opening quote. -/
def start : Quote := ⟨[], none, .plain⟩

/-- The string, or its problem. -/
def content (q : Quote) : Except SyntaxError String :=
  match q.problem with
  | none => .ok (String.ofList q.reversed.reverse)
  | some e => .error e

/-- Appends a character and goes on after it. -/
def push (q : Quote) (c : Char) : Quote := ⟨c :: q.reversed, q.problem, .plain⟩

/-- Notes a problem, unless there is an earlier one, and goes on. -/
def flaw (q : Quote) (e : SyntaxError) : Quote :=
  ⟨q.reversed, some (q.problem.getD e), .plain⟩

/-- The fault where the string stops following the grammar.  A reader that needs the string's
value has met its problem before that. -/
def faultOf (q : Quote) (e : SyntaxError) : Fault := ⟨q.problem.getD e, e, q.problem.getD e⟩

/-- The value of a hexadecimal digit. -/
def hexValue? (c : Char) : Option Nat :=
  if '0' ≤ c ∧ c ≤ '9' then some (c.toNat - '0'.toNat)
  else if 'a' ≤ c ∧ c ≤ 'f' then some (c.toNat - 'a'.toNat + 10)
  else if 'A' ≤ c ∧ c ≤ 'F' then some (c.toNat - 'A'.toNat + 10)
  else none

/-- The first of a pair of surrogates. -/
def isHighSurrogate (v : Nat) : Bool := 0xD800 ≤ v && v < 0xDC00

/-- The second of a pair of surrogates. -/
def isLowSurrogate (v : Nat) : Bool := 0xDC00 ≤ v && v < 0xE000

/-- The character of a pair of surrogates. -/
def pairedChar (high low : Nat) : Char :=
  Char.ofNat (0x10000 + (high - 0xD800) * 0x400 + (low - 0xDC00))

/-- Goes on after a complete `\u` escape. -/
def unit (q : Quote) (v : Nat) (high : Option Nat) : Quote :=
  match high with
  | some h => if isLowSurrogate v then q.push (pairedChar h v) else q.flaw .loneSurrogate
  | none =>
    if isHighSurrogate v then { q with phase := .surrogate v }
    else if isLowSurrogate v then q.flaw .loneSurrogate
    else q.push (Char.ofNat v)

/-- A character outside of escapes. -/
def plainStep (q : Quote) (c : Char) : Step :=
  if c = '"' then .closed q.content
  else if c = '\\' then .more { q with phase := .escape }
  else if c.toNat < 0x20 then .fault (q.faultOf .controlCharacter)
  else .more (q.push c)

/-- The character that a one-letter escape stands for. -/
def escaped? : Char → Option Char
  | '"' => some '"'
  | '\\' => some '\\'
  | '/' => some '/'
  | 'b' => some '\x08'
  | 'f' => some '\x0c'
  | 'n' => some '\n'
  | 'r' => some '\r'
  | 't' => some '\t'
  | _ => none

/-- A character after a backslash. -/
def escapeStep (q : Quote) (c : Char) : Step :=
  if c = 'u' then .more { q with phase := .hex 0 (some 0) none }
  else match escaped? c with
    | some d => .more (q.push d)
    | none => .fault (q.faultOf .invalidEscape)

/-- A character of a `\u` escape. -/
def hexStep (q : Quote) (bytes : Nat) (value high : Option Nat) (c : Char) : Step :=
  let bytes := bytes + c.utf8Size
  let value := do return 16 * (← value) + (← hexValue? c)
  if bytes < 4 then .more { q with phase := .hex bytes value high }
  else match value with
    | some v => .more (q.unit v high)
    | none => .fault (q.faultOf .invalidEscape)

/-- Scans one character of a string. -/
def step (q : Quote) (c : Char) : Step :=
  match q.phase with
  | .plain => q.plainStep c
  | .escape => q.escapeStep c
  | .hex bytes value high => q.hexStep bytes value high c
  | .surrogate high =>
    if c = '\\' then .more { q with phase := .surrogateEscape high }
    else (q.flaw .unexpectedHexEnd).plainStep c
  | .surrogateEscape high =>
    if c = 'u' then .more { q with phase := .hex 0 (some 0) (some high) }
    else (q.flaw .unexpectedHexEnd).escapeStep c

/-- The fault of a text that ends inside the string. -/
def atEnd (q : Quote) : Fault := q.faultOf .endInString

end Quote

end GraphCodec.Json
