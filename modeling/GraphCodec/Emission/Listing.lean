/-!
# Source listings

Source text is put together from lines that know how deep they are nested.  A `SourceWriter` writes
a listing line by line at a level that can be changed between lines.
-/

namespace GraphCodec

/-- A line of source text. -/
inductive SourceLine where
  | blank
  | text (level : Nat) (content : String)
deriving DecidableEq, Repr

namespace SourceLine

/-- The same line, one level deeper. -/
def deeper : SourceLine → SourceLine
  | blank => blank
  | text level content => text (level + 1) content

/-- The text of a line: four spaces for each level, the content and a line break. -/
def render : SourceLine → String
  | blank => "\n"
  | text level content => String.ofList (List.replicate (4 * level) ' ') ++ content ++ "\n"

end SourceLine

/-- Lines of source text. -/
abbrev Listing := List SourceLine

namespace Listing

/-- A single line. -/
def line (content : String) : Listing := [.text 0 content]

/-- An empty line. -/
def gap : Listing := [.blank]

/-- The same lines, one level deeper. -/
def nest (l : Listing) : Listing := l.map .deeper

/-- Lines one level deeper than a line before and a line behind them. -/
def block (head : String) (body : Listing) (foot : String) : Listing :=
  line head ++ body.nest ++ line foot

/-- The text of a listing. -/
def render (l : Listing) : String := String.join (l.map SourceLine.render)

end Listing

/-- A listing that is being written. -/
structure SourceWriter where
  level : Nat
  lines : Listing
deriving DecidableEq, Repr

namespace SourceWriter

/-- A writer that has written nothing. -/
def empty : SourceWriter := ⟨0, []⟩

/-- Goes one level deeper. -/
def indent (w : SourceWriter) : SourceWriter := { w with level := w.level + 1 }

/-- Goes back one level. -/
def dedent (w : SourceWriter) : SourceWriter := { w with level := w.level - 1 }

/-- Writes a line. -/
def line (w : SourceWriter) (content : String) : SourceWriter :=
  { w with lines := w.lines ++ [.text w.level content] }

/-- Writes an empty line. -/
def gap (w : SourceWriter) : SourceWriter := { w with lines := w.lines ++ [.blank] }

/-- Takes out the text that has been written. -/
def take (w : SourceWriter) : String × SourceWriter := (w.lines.render, { w with lines := [] })

end SourceWriter

end GraphCodec
