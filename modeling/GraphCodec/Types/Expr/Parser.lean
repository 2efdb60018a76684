import GraphCodec.Types.Expr.Token

/-!
# Parsing type expressions

The grammar of type expressions is

* a type is a path, then its type arguments between `<` and `>` with commas between them, if it has
  any, then any number of pairs `[` and `]`.

The whole text is split into tokens first, so a character that is no part of a token is reported in
preference to tokens in the wrong place.
-/

namespace GraphCodec.TypeExpr

/-- What is left to parse after some of the tokens. -/
abbrev Rest (ls : List Lexeme) := { rest : List Lexeme // rest.length < ls.length }

/-- Where the next token stands in a text that ends at a byte. -/
def here (stop : Nat) : List Lexeme → Span
  | [] => ⟨stop, stop⟩
  | l :: _ => l.span

/-- Passes over one token. -/
def expect (stop : Nat) (token : Token) (ls : List Lexeme) : Except Error (Rest ls) :=
  match ls with
  | [] => .error (.expected token ⟨stop, stop⟩)
  | l :: rest =>
    if l.token = token then .ok ⟨rest, by simp⟩ else .error (.expected token l.span)

/-- Parses pairs of square brackets; the result is their number. -/
def parseDims (stop : Nat) (ls : List Lexeme) :
    Except Error (Nat × { rest : List Lexeme // rest.length ≤ ls.length }) :=
  match ls with
  | ⟨.leftBracket, _⟩ :: rest => do
    let after ← expect stop .rightBracket rest
    let (dims, ⟨left, h⟩) ← parseDims stop after.1
    return (dims + 1, ⟨left, by have := after.2; simp only [List.length_cons]; omega⟩)
  | ls => .ok (0, ⟨ls, Nat.le_refl _⟩)
termination_by ls.length
decreasing_by
  have := after.2
  simp only [List.length_cons]
  omega

mutual

/-- Parses a type. -/
def parseType (stop : Nat) (ls : List Lexeme) : Except Error (TypeExpr × Rest ls) :=
  match ls with
  | ⟨.path path, _⟩ :: ⟨.less, _⟩ :: rest => do
    let (arguments, after) ← parseArguments stop rest
    let (dims, ⟨left, h⟩) ← parseDims stop after.1
    return (.mk path arguments dims,
      ⟨left, by have := after.2; simp only [List.length_cons]; omega⟩)
  | ⟨.path path, _⟩ :: rest => do
    let (dims, ⟨left, h⟩) ← parseDims stop rest
    return (.mk path [] dims, ⟨left, by simp only [List.length_cons]; omega⟩)
  | ls => .error (.expected (.path "") (here stop ls))
termination_by 2 * ls.length
decreasing_by
  simp only [List.length_cons]
  omega

/-- Parses one or more type arguments and the angle bracket after them. -/
def parseArguments (stop : Nat) (ls : List Lexeme) : Except Error (List TypeExpr × Rest ls) := do
  let (first, after) ← parseType stop ls
  match _h : after.1 with
  | ⟨.comma, _⟩ :: rest =>
    let (others, left) ← parseArguments stop rest
    return (first :: others,
      ⟨left.1, by have := left.2; have := after.2; simp only [_h, List.length_cons] at this; omega⟩)
  | _ =>
    let left ← expect stop .greater after.1
    return ([first], ⟨left.1, by have := left.2; have := after.2; omega⟩)
termination_by 2 * ls.length + 1
decreasing_by
  · omega
  · have := after.2
    simp only [_h, List.length_cons] at this
    omega

end

/-- Parses a text as a single type expression. -/
def parse (source : String) : Except Error TypeExpr := do
  let ls ← lexemes 0 source.toList
  let (e, rest) ← parseType source.utf8ByteSize ls
  match rest.1 with
  | [] => return e
  | l :: _ => .error (.trailing l.token l.span)

end GraphCodec.TypeExpr
