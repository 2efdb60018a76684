import GraphCodec.Types.Expr.Basic

/-!
# Tokens of type expressions

A path is a run of identifiers with single dots between them.  A dot that no identifier follows is
not part of a path, and no token either.  Blanks between tokens are passed over.
-/

namespace GraphCodec.TypeExpr

/-- Whether a character may begin an identifier. -/
def isIdentStart (c : Char) : Bool := c.isAlpha || c = '_' || c = '$'

/-- Whether a character may stand in an identifier. -/
def isIdentPart (c : Char) : Bool := isIdentStart c || c.isDigit

/-- Whether a character may stand between tokens. -/
def isSpace (c : Char) : Bool := c = ' ' || c = '\t' || c = '\r' || c = '\n'

/-- Splits a text behind the rest of a path. -/
def splitPath : List Char → List Char × List Char
  | [] => ([], [])
  | '.' :: c :: rest =>
    if isIdentStart c then
      let (path, rest) := splitPath (c :: rest)
      ('.' :: path, rest)
    else ([], '.' :: c :: rest)
  | c :: rest =>
    if isIdentPart c then
      let (path, rest) := splitPath rest
      (c :: path, rest)
    else ([], c :: rest)

/-- Nothing is lost where a text is split. -/
theorem splitPath_append (cs : List Char) : (splitPath cs).1 ++ (splitPath cs).2 = cs := by
  fun_induction splitPath cs <;> simp_all

/-- What is left behind a path is no longer than the text. -/
theorem length_splitPath (cs : List Char) : (splitPath cs).2.length ≤ cs.length := by
  have := congrArg List.length (splitPath_append cs)
  simp only [List.length_append] at this
  omega

/-- The token that is a single character. -/
def Token.ofChar? : Char → Option Token
  | '<' => some .less
  | '>' => some .greater
  | ',' => some .comma
  | '[' => some .leftBracket
  | ']' => some .rightBracket
  | _ => none

/-- A token and where it stands. -/
structure Lexeme where
  token : Token
  span : Span
deriving DecidableEq, Repr

/-- The tokens of a text that begins at a byte. -/
def lexemes (start : Nat) (cs : List Char) : Except Error (List Lexeme) :=
  match cs with
  | [] => .ok []
  | c :: rest =>
    if isSpace c then lexemes (start + 1) rest
    else if isIdentStart c then do
      let path := c :: (splitPath rest).1
      let stop := start + path.length
      let more ← lexemes stop (splitPath rest).2
      return ⟨.path (String.ofList path), ⟨start, stop⟩⟩ :: more
    else
      match Token.ofChar? c with
      | some token => do
        let more ← lexemes (start + 1) rest
        return ⟨token, ⟨start, start + 1⟩⟩ :: more
      | none => .error (.invalidCharacter ⟨start, start + c.utf8Size⟩)
termination_by cs.length
decreasing_by
  · simp
  · have := length_splitPath rest
    simp only [List.length_cons]
    omega
  · simp

end GraphCodec.TypeExpr
