import GraphCodec.Json.Draft
import GraphCodec.Json.Digits
import GraphCodec.Json.Quote
import GraphCodec.Json.Numeral

/-!
# Scanning JSON

The scanner goes through a text once, a character at a time, and keeps the arrays and objects that
are open on a stack of `Frame`s.  Its state always stands for a draft of what has been seen:
`Scanner.finish` closes it at the end of the text, and a character that does not fit closes it with
a fault in its place.

`Json.parse` settles the draft of a whole text, with no bound on the nesting.
-/

namespace GraphCodec.Json

/-- An array or object inside one of whose values the scanner is; the values before it are last
first. -/
inductive Frame where
  | array (items : List Draft)
  | object (members : List Draft.Member)
      (key : Except SyntaxError String)

/-- Which value has just ended; the values of an array or object are last first. -/
inductive Scanner.Ended where
  | element (items : List Draft)
  | member (members : List Draft.Member)
  /-- The value of the text. -/
  | document (value : Draft)

/-- What the scanner is in the middle of. -/
inductive Scanner.Phase where
  /-- A value is due. -/
  | value
  /-- Inside `null`, `true` or `false`: the letters still due, and the value. -/
  | literal (letters : List Char) (value : Draft)
  | number (d : Digits)
  | string (q : Quote)
  /-- A member's name, or the end of an empty object, is due. -/
  | name (members : List Draft.Member)
  /-- Inside a member's name. -/
  | key (members : List Draft.Member) (q : Quote)
  /-- The colon after a member's name is due. -/
  | colon (members : List Draft.Member)
      (key : Except SyntaxError String)
  /-- A value has ended. -/
  | ended (e : Scanner.Ended)

/-- The state of the scanner: the open arrays and objects, innermost first, and the phase. -/
structure Scanner where
  frames : List Frame
  phase : Scanner.Phase

namespace Scanner

/-- The state before the first character. -/
def start : Scanner := ⟨[], .value⟩

/-- A complete value takes its place in the innermost open array or object. -/
def place (frames : List Frame) (value : Draft) : List Frame × Ended :=
  match frames with
  | [] => ([], .document value)
  | .array items :: rest => (rest, .element (value :: items))
  | .object members key :: rest => (rest, .member ((key, value) :: members))

/-- Goes on after a complete value. -/
def complete (frames : List Frame) (value : Draft) : Scanner :=
  let (frames, e) := place frames value
  ⟨frames, .ended e⟩

/-- The document whose innermost open value is given. -/
def close (frames : List Frame) (value : Draft) : Document :=
  match frames with
  | [] => ⟨value, false⟩
  | .array items :: rest => close rest (.array (value :: items).reverse none)
  | .object members key :: rest => close rest (.object ((key, value) :: members).reverse none)

/-- The document with a fault where an element was due or a comma after one. -/
def stopArray (frames : List Frame) (items : List Draft) (f : Fault) : Document :=
  close frames (.array items.reverse (some f))

/-- The document with a fault where a member was due or a comma after one. -/
def stopObject (frames : List Frame) (members : List Draft.Member)
    (f : Fault) : Document :=
  close frames (.object members.reverse (some f))

/-- The draft of a complete number. -/
def numberDraft (d : Digits) : Draft :=
  match Number.ofNumeral? d.numeral with
  | some n => .number n
  | none => .unreadable .numberOutOfRange

/-- The draft of a complete string. -/
def stringDraft (content : Except SyntaxError String) : Draft :=
  match content with
  | .ok s => .string s
  | .error e => .unreadable e

/-- The blanks that may stand between tokens. -/
def isBlank (c : Char) : Bool := c = ' ' || c = '\t' || c = '\n' || c = '\r'

/-- The first character of a value. -/
def valueStep (frames : List Frame) (c : Char) : Except Document Scanner :=
  match c, frames with
  | '"', _ => .ok ⟨frames, .string Quote.start⟩
  | '[', _ => .ok ⟨.array [] :: frames, .value⟩
  | '{', _ => .ok ⟨frames, .name []⟩
  | 'n', _ => .ok ⟨frames, .literal "ull".toList .null⟩
  | 't', _ => .ok ⟨frames, .literal "rue".toList (.bool true)⟩
  | 'f', _ => .ok ⟨frames, .literal "alse".toList (.bool false)⟩
  | '-', _ => .ok ⟨frames, .number Digits.minus⟩
  | ']', .array [] :: rest => .ok (complete rest (.array [] none))
  | ']', .array items :: rest =>
    .error (stopArray rest items ⟨.trailingComma, .expectedValue, .trailingComma⟩)
  | c, _ =>
    match Decimal.digitValue? c with
    | some v => .ok ⟨frames, .number (Digits.first false v)⟩
    | none => .error (close frames (.fault (.always .expectedValue)))

/-- A character where a member's name is due. -/
def nameStep (frames : List Frame) (members : List Draft.Member)
    (c : Char) : Except Document Scanner :=
  if c = '"' then .ok ⟨frames, .key members Quote.start⟩
  else if c = '}' then
    if members.isEmpty then .ok (complete frames (.object [] none))
    else .error (stopObject frames members ⟨.trailingComma, .keyNotString, .trailingComma⟩)
  else .error (stopObject frames members (.always .keyNotString))

/-- A character after a value that has ended. -/
def endedStep (frames : List Frame) (e : Ended) (c : Char) : Except Document Scanner :=
  if isBlank c then .ok ⟨frames, .ended e⟩
  else match e with
  | .element items =>
    if c = ',' then .ok ⟨.array items :: frames, .value⟩
    else if c = ']' then .ok (complete frames (.array items.reverse none))
    else .error (stopArray frames items (.always .expectedListEnd))
  | .member members =>
    if c = ',' then .ok ⟨frames, .name members⟩
    else if c = '}' then .ok (complete frames (.object members.reverse none))
    else .error (stopObject frames members (.always .expectedObjectEnd))
  | .document value => .error ⟨value, true⟩

/-- Scans one character; a character that does not fit ends the scan with a document. -/
def step (s : Scanner) (c : Char) : Except Document Scanner :=
  match s.phase with
  | .value => if isBlank c then .ok s else valueStep s.frames c
  | .literal letters value =>
    match letters with
    | l :: rest =>
      if c = l then
        .ok (if rest.isEmpty then complete s.frames value else ⟨s.frames, .literal rest value⟩)
      else .error (close s.frames (.fault (.unnamed .expectedIdent .expectedIdent)))
    | [] => .ok (complete s.frames value)
  | .number d =>
    match d.step c with
    | .more d => .ok ⟨s.frames, .number d⟩
    | .fault => .error (close s.frames (.fault (.unnamed .invalidNumber .invalidNumber)))
    | .ended =>
      let (frames, e) := place s.frames (numberDraft d)
      endedStep frames e c
  | .string q =>
    match q.step c with
    | .more q => .ok ⟨s.frames, .string q⟩
    | .closed content => .ok (complete s.frames (stringDraft content))
    | .fault f => .error (close s.frames (.fault f))
  | .name members => if isBlank c then .ok s else nameStep s.frames members c
  | .key members q =>
    match q.step c with
    | .more q => .ok ⟨s.frames, .key members q⟩
    | .closed content => .ok ⟨s.frames, .colon members content⟩
    | .fault f => .error (stopObject s.frames members f)
  | .colon members key =>
    if isBlank c then .ok s
    else if c = ':' then .ok ⟨.object members key :: s.frames, .value⟩
    else .error (close (.object members key :: s.frames) (.fault (.always .expectedColon)))
  | .ended e => endedStep s.frames e c

/-- The document of a text that ends after a value. -/
def endedFinish (frames : List Frame) : Ended → Document
  | .element items => stopArray frames items (.always .endInList)
  | .member members => stopObject frames members (.always .endInObject)
  | .document value => ⟨value, false⟩

/-- The document of a text that ends in this state. -/
def finish (s : Scanner) : Document :=
  match s.phase with
  | .value =>
    match s.frames with
    | .array [] :: rest => stopArray rest [] (.always .endInList)
    | frames => close frames (.fault (.always .endInValue))
  | .literal _ _ => close s.frames (.fault (.unnamed .endInValue .endInValue))
  | .number d =>
    if d.isComplete then
      let (frames, e) := place s.frames (numberDraft d)
      endedFinish frames e
    else close s.frames (.fault (.unnamed .endInValue .invalidNumber))
  | .string q => close s.frames (.fault q.atEnd)
  | .name [] => stopObject s.frames [] (.always .endInObject)
  | .name members => stopObject s.frames members ⟨.endInValue, .endInObject, .endInValue⟩
  | .key members q => stopObject s.frames members q.atEnd
  | .colon members key =>
    close (.object members key :: s.frames) (.fault (.always .endInObject))
  | .ended e => endedFinish s.frames e

/-- Scans the rest of a text. -/
def run (s : Scanner) : List Char → Document
  | [] => s.finish
  | c :: rest =>
    match s.step c with
    | .ok s => s.run rest
    | .error d => d

end Scanner

/-- The draft of a text. -/
def Document.scan (text : String) : Document := Scanner.start.run text.toList

/-- Reads a value from a document, which must hold nothing else. -/
def Document.read {α ε : Type} (d : Document) (reader : Draft → Except ε α)
    (trailing : SyntaxError → ε) : Except ε α := do
  let value ← reader d.value
  if d.trailing then .error (trailing .trailingCharacters) else return value

/-- Reads a text as JSON, however deep it is nested. -/
def parse (text : String) : Except SyntaxError Json :=
  (Document.scan text).read (Draft.settle none) id

end GraphCodec.Json
