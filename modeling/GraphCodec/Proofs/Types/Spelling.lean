import GraphCodec.Proofs.Except
import GraphCodec.Types.Expr.Parser

/-!
# Spelling type expressions

A text spells some tokens if it consists of them, in their order, with any blanks around them
(`TypeExpr.Spells`).  Splitting such a text yields the tokens (`TypeExpr.lexemes_of_spells`), and
the parser yields the expression that the tokens are those of (`TypeExpr.parse_of_spells`), however
deep it is nested.
-/

namespace GraphCodec.TypeExpr

/-! ### Paths -/

/-- Whether characters are an identifier. -/
inductive IsIdent : List Char → Prop where
  | mk {c : Char} {cs : List Char} : isIdentStart c → (∀ d ∈ cs, isIdentPart d) → IsIdent (c :: cs)

/-- Whether characters are a path: identifiers with single dots between them. -/
inductive IsPath : List Char → Prop where
  | ident {cs : List Char} : IsIdent cs → IsPath cs
  | dot {cs rest : List Char} : IsIdent cs → IsPath rest → IsPath (cs ++ '.' :: rest)

/-- Whether a path can end in front of some characters. -/
def EndsPath (cs : List Char) : Prop := ∀ c ∈ cs.head?, c ≠ '.' ∧ isIdentPart c = false

theorem isIdentPart_of_isIdentStart {c : Char} (h : isIdentStart c) : isIdentPart c := by
  rw [isIdentPart, h, Bool.true_or]

/-- An identifier can be continued. -/
private theorem IsIdent.concat {cs : List Char} (h : IsIdent cs) {c : Char} (hc : isIdentPart c) :
    IsIdent (cs ++ [c]) := by
  obtain ⟨hstart, hparts⟩ := h
  refine .mk hstart fun d hd => ?_
  -- The character is an old one or the new one.
  rcases List.mem_append.1 hd with hd | hd
  · exact hparts d hd
  · exact List.mem_singleton.1 hd ▸ hc

/-- An identifier consists of characters that may stand in one. -/
private theorem IsIdent.isIdentPart_of_mem {cs : List Char} (h : IsIdent cs) {c : Char}
    (hc : c ∈ cs) :
    isIdentPart c := by
  obtain ⟨hstart, hparts⟩ := h
  rcases List.mem_cons.1 hc with rfl | hc
  · exact isIdentPart_of_isIdentStart hstart
  · exact hparts c hc

/-- A path consists of characters of identifiers and dots. -/
theorem IsPath.isIdentPart_of_mem {cs : List Char} (h : IsPath cs) {c : Char} (hc : c ∈ cs) :
    c = '.' ∨ isIdentPart c := by
  -- Identifier by identifier.
  induction h with
  | ident h => exact .inr (h.isIdentPart_of_mem hc)
  | dot h _ ih =>
    rcases List.mem_append.1 hc with hc | hc
    · exact .inr (h.isIdentPart_of_mem hc)
    · rcases List.mem_cons.1 hc with rfl | hc
      · exact .inl rfl
      · exact ih hc

/-- A character of an identifier is split off with the path. -/
theorem splitPath_cons {c : Char} (h : isIdentPart c) (cs : List Char) :
    splitPath (c :: cs) = (c :: (splitPath cs).1, (splitPath cs).2) := by
  have hdot : c ≠ '.' := by
    rintro rfl
    exact absurd h (by decide)
  -- The equation for other characters has to be told apart from the one for dots.
  rw [splitPath.eq_def]
  split
  case h_1 heq => cases heq
  case h_2 heq => exact absurd (List.cons.inj heq).1 hdot
  case h_3 heq =>
    obtain ⟨rfl, rfl⟩ := List.cons.inj heq
    rw [if_pos h]

/-- The rest of an identifier is passed over. -/
private theorem splitPath_append_of_isIdentPart {cs : List Char} (h : ∀ c ∈ cs, isIdentPart c)
    (rest : List Char) :
    splitPath (cs ++ rest) = (cs ++ (splitPath rest).1, (splitPath rest).2) := by
  -- One character after the other.
  induction cs with
  | nil => rfl
  | cons c cs ih =>
    rw [List.cons_append, splitPath_cons (h c List.mem_cons_self),
      ih fun d hd => h d (List.mem_cons_of_mem _ hd)]
    rfl

/-- A dot before an identifier is split off with the path. -/
private theorem splitPath_dot {c : Char} (h : isIdentStart c) (cs : List Char) :
    splitPath ('.' :: c :: cs) =
      ('.' :: c :: (splitPath cs).1, (splitPath cs).2) := by
  rw [splitPath, if_pos h, splitPath_cons (isIdentPart_of_isIdentStart h)]

/-- Where a path can end, nothing is split off. -/
private theorem splitPath_of_endsPath {cs : List Char} (h : EndsPath cs) :
    splitPath cs = ([], cs) := by
  cases cs with
  | nil => rfl
  | cons c cs =>
    -- The next character is neither a dot nor one of an identifier.
    obtain ⟨hdot, hpart⟩ := h c rfl
    rw [splitPath.eq_def]
    split
    case h_1 heq => cases heq
    case h_2 heq => exact absurd (List.cons.inj heq).1 hdot
    case h_3 heq =>
      obtain ⟨rfl, rfl⟩ := List.cons.inj heq
      rw [if_neg (by rw [hpart]; exact Bool.false_ne_true)]

theorem endsPath_nil : EndsPath [] := fun _ h => absurd h (by simp)

/-- Where a path begins, the whole path is split off. -/
theorem IsPath.splitPath_eq {cs : List Char} (h : IsPath cs) : ∃ c path, cs = c :: path ∧
    isIdentStart c ∧ ∀ rest, EndsPath rest → splitPath (path ++ rest) = (path, rest) := by
  induction h with
  -- A single identifier is passed over, and the path ends behind it.
  | ident hident =>
    obtain ⟨hstart, hparts⟩ := hident
    refine ⟨_, _, rfl, hstart, fun rest hrest => ?_⟩
    rw [splitPath_append_of_isIdentPart hparts, splitPath_of_endsPath hrest, List.append_nil]
  -- Behind a dot the rest of the path is split off.
  | dot hident _ ih =>
    obtain ⟨hstart, hparts⟩ := hident
    obtain ⟨d, path, rfl, hnext, hsplit⟩ := ih
    refine ⟨_, _, List.cons_append, hstart, fun rest hrest => ?_⟩
    rw [List.append_assoc, splitPath_append_of_isIdentPart hparts, List.cons_append,
      List.cons_append, splitPath_dot hnext, hsplit rest hrest]

/-- What is split off behind an identifier, or where one begins, completes a path. -/
theorem isPath_append_splitPath {before cs : List Char}
    (h : IsIdent before ∨ before = [] ∧ ∃ c ∈ cs.head?, isIdentStart c) :
    IsPath (before ++ (splitPath cs).1) := by
  -- `before` is the identifier that is being read.  It is empty only where the next one begins.
  fun_induction splitPath cs generalizing before with
  -- The text ends behind the identifier.
  | case1 =>
    rcases h with h | ⟨-, c, hc, -⟩
    · exact .ident (by rwa [List.append_nil])
    · cases hc
  -- A dot with an identifier behind it: the next one is read from its start.
  | case2 c rest hstart path rest' hsplit ih =>
    rcases h with h | ⟨-, d, hd, hdot⟩
    · exact .dot h (by simpa [hsplit] using ih (.inr ⟨rfl, c, rfl, hstart⟩))
    · cases hd
      exact absurd hdot (by decide)
  -- A dot without one behind it ends the path.
  | case3 c rest hstart =>
    rcases h with h | ⟨-, d, hd, hdot⟩
    · exact .ident (by rwa [List.append_nil])
    · cases hd
      exact absurd hdot (by decide)
  -- Another character of the identifier.
  | case4 c rest hdot hpart path rest' hsplit ih =>
    have hident : IsIdent (before ++ [c]) := by
      rcases h with h | ⟨rfl, d, hd, hstart⟩
      · exact h.concat hpart
      · cases hd
        exact .mk hstart (List.forall_mem_nil _)
    simpa [hsplit] using ih (.inl hident)
  -- Any other character ends the path.
  | case5 c rest hdot hpart =>
    rcases h with h | ⟨-, d, hd, hstart⟩
    · exact .ident (by rwa [List.append_nil])
    · cases hd
      exact absurd (isIdentPart_of_isIdentStart hstart) hpart

/-- A text is a path if it begins like one and is split off as a whole. -/
private theorem isPath_iff {cs : List Char} :
    IsPath cs ↔ cs.head?.any isIdentStart ∧ (splitPath cs).2 = [] := by
  rw [Option.any_eq_true]
  constructor
  -- What is split off from a path is the whole path.
  · intro h
    obtain ⟨c, path, rfl, hstart, hsplit⟩ := h.splitPath_eq
    have hsplit := hsplit [] endsPath_nil
    rw [List.append_nil] at hsplit
    exact ⟨⟨c, rfl, hstart⟩, by rw [splitPath_cons (isIdentPart_of_isIdentStart hstart), hsplit]⟩
  -- What is split off is a path, and nothing is left.
  · rintro ⟨hstart, hrest⟩
    have hpath := isPath_append_splitPath (.inr ⟨rfl, hstart⟩)
    have hwhole := splitPath_append cs
    rw [hrest, List.append_nil] at hwhole
    rwa [hwhole] at hpath

instance (cs : List Char) : Decidable (IsPath cs) := decidable_of_iff _ isPath_iff.symm

/-! ### Tokens -/

/-- Whether a text spells some tokens, with any blanks around them.  A path goes on as far as it
can. -/
inductive Spells : List Char → List Token → Prop where
  | done : Spells [] []
  | blank {c : Char} {cs : List Char} {tokens : List Token} : isSpace c → Spells cs tokens →
    Spells (c :: cs) tokens
  | symbol {c : Char} {cs : List Char} {token : Token} {tokens : List Token} :
    Token.ofChar? c = some token → Spells cs tokens → Spells (c :: cs) (token :: tokens)
  | path {path cs : List Char} {tokens : List Token} : IsPath path → EndsPath cs →
    Spells cs tokens → Spells (path ++ cs) (.path (String.ofList path) :: tokens)

/-- Texts behind each other spell the tokens of one and then those of the other, where no path of
the first one goes on. -/
theorem Spells.append {cs ds : List Char} {tokens others : List Token} (h : Spells cs tokens)
    (hd : Spells ds others) (hends : EndsPath ds) : Spells (cs ++ ds) (tokens ++ others) := by
  induction h with
  | done => exact hd
  | blank hspace _ ih => exact .blank hspace ih
  | symbol htoken _ ih => exact .symbol htoken ih
  | @path path cs _ hpath hcs _ ih =>
    -- Where the first text ends, the second one begins, and no path goes on there.
    have hcs : EndsPath (cs ++ ds) := by
      cases cs with
      | nil => exact hends
      | cons c cs => exact hcs
    rw [List.append_assoc]
    exact .path hpath hcs ih

/-- A path spells itself. -/
theorem spells_path {path : String} (h : IsPath path.toList) :
    Spells path.toList [.path path] := by
  have hpath := Spells.path h endsPath_nil .done
  rwa [List.append_nil, String.ofList_toList] at hpath

/-- No symbol is a blank or begins a path. -/
private theorem isSpace_of_ofChar? {c : Char} {token : Token} (h : Token.ofChar? c = some token) :
    isSpace c = false ∧ isIdentStart c = false := by
  unfold Token.ofChar? at h
  split at h
  case h_6 => cases h
  all_goals decide

/-- What begins an identifier is no blank. -/
private theorem isSpace_of_isIdentStart {c : Char} (h : isIdentStart c) : isSpace c = false := by
  refine Bool.eq_false_iff.2 fun hspace => ?_
  -- There are four blanks.
  simp only [isSpace, Bool.or_eq_true, decide_eq_true_eq] at hspace
  rcases hspace with ((rfl | rfl) | rfl) | rfl <;> exact absurd h (by decide)

/-- A text that spells tokens is split into them. -/
theorem lexemes_of_spells {cs : List Char} {tokens : List Token} (h : Spells cs tokens)
    (start : Nat) : ∃ ls, lexemes start cs = .ok ls ∧ ls.map (·.token) = tokens := by
  induction h generalizing start with
  -- No text, no tokens.
  | done => exact ⟨[], by rw [lexemes], rfl⟩
  | blank hspace _ ih =>
    rw [lexemes, if_pos hspace]
    exact ih _
  -- A symbol is a token by itself.
  | symbol htoken _ ih =>
    obtain ⟨hspace, hstart⟩ := isSpace_of_ofChar? htoken
    obtain ⟨ls, hls, htokens⟩ := ih (start + 1)
    rw [lexemes, hspace, hstart, htoken]
    exact ⟨_, Except.bind_eq_ok.2 ⟨ls, hls, rfl⟩, congrArg _ htokens⟩
  | path hpath hends _ ih =>
    -- The first character decides that a path begins, and the others are split off behind it.
    obtain ⟨c, path, rfl, hstart, hsplit⟩ := hpath.splitPath_eq
    have hspace := isSpace_of_isIdentStart hstart
    obtain ⟨ls, hls, htokens⟩ := ih (start + (c :: path).length)
    rw [List.cons_append, lexemes, hspace, if_neg Bool.false_ne_true, if_pos hstart,
      hsplit _ hends]
    exact ⟨_, Except.bind_eq_ok.2 ⟨ls, hls, rfl⟩, congrArg _ htokens⟩

/-! ### Expressions -/

/-- The tokens of a number of levels of arrays. -/
def dimTokens : Nat → List Token
  | 0 => []
  | dims + 1 => .leftBracket :: .rightBracket :: dimTokens dims

mutual

/-- The tokens of an expression. -/
def tokens : TypeExpr → List Token
  | .mk path arguments dims => .path path :: (argumentTokens arguments ++ dimTokens dims)

/-- The tokens of the arguments of an expression, if it has any. -/
def argumentTokens : List TypeExpr → List Token
  | [] => []
  | first :: others => .less :: (first.tokens ++ otherTokens others)

/-- The tokens of the arguments behind the first one. -/
def otherTokens : List TypeExpr → List Token
  | [] => [.greater]
  | next :: others => .comma :: (next.tokens ++ otherTokens others)

end

/-- One level more is one pair of brackets more at the end. -/
private theorem dimTokens_succ (dims : Nat) :
    dimTokens (dims + 1) = dimTokens dims ++ [.leftBracket, .rightBracket] := by
  induction dims with
  | zero => rfl
  | succ dims ih => exact congrArg (fun ts => .leftBracket :: .rightBracket :: ts) ih

/-- An expression with one more level of arrays around it. -/
def inArray : TypeExpr → TypeExpr
  | .mk path arguments dims => .mk path arguments (dims + 1)

/-- The tokens of an array are those of its element and a pair of brackets. -/
theorem tokens_inArray (e : TypeExpr) :
    e.inArray.tokens = e.tokens ++ [.leftBracket, .rightBracket] := by
  obtain ⟨path, arguments, dims⟩ := e
  rw [inArray, tokens, tokens, dimTokens_succ, List.cons_append, List.append_assoc]

/-- Whether a type can end in front of some tokens. -/
def EndsType (tokens : List Token) : Prop := ∀ t ∈ tokens.head?, t ≠ .less ∧ t ≠ .leftBracket

private theorem endsType_nil : EndsType [] := nofun

/-- The tokens behind an argument end its expression. -/
private theorem endsType_otherTokens (others : List TypeExpr) (after : List Token) :
    EndsType (otherTokens others ++ after) := by
  intro t ht
  -- Behind the last argument stands an angle bracket, behind any other one a comma.
  cases others with
  | nil =>
    cases ht
    decide
  | cons next others =>
    rw [otherTokens] at ht
    cases ht
    decide

/-- The lexeme of the first of some tokens. -/
theorem exists_of_map_token {ls : List Lexeme} {t : Token} {after : List Token}
    (h : ls.map (·.token) = t :: after) :
    ∃ span rest, ls = ⟨t, span⟩ :: rest ∧ rest.map (·.token) = after := by
  obtain ⟨⟨_, span⟩, rest, rfl, rfl, hrest⟩ := List.map_eq_cons_iff.1 h
  exact ⟨span, rest, rfl, hrest⟩

/-- The parser goes past a token that it expects. -/
private theorem expect_eq {ls : List Lexeme} {token : Token} {after : List Token} (stop : Nat)
    (h : ls.map (·.token) = token :: after) :
    ∃ rest, expect stop token ls = .ok rest ∧ rest.1.map (·.token) = after := by
  obtain ⟨span, rest, rfl, hrest⟩ := exists_of_map_token h
  exact ⟨⟨rest, by simp⟩, if_pos rfl, hrest⟩

/-- Levels of arrays are parsed as far as there are any. -/
private theorem parseDims_eq {ls : List Lexeme} {dims : Nat} {after : List Token} (stop : Nat)
    (h : ls.map (·.token) = dimTokens dims ++ after) (hafter : EndsType after) :
    ∃ rest, parseDims stop ls = .ok (dims, rest) ∧ rest.1.map (·.token) = after := by
  induction dims generalizing ls with
  -- What follows is no bracket, so there are no levels.
  | zero =>
    have hdims : parseDims stop ls = .ok (0, ⟨ls, Nat.le_refl _⟩) := by
      rw [parseDims.eq_def]
      split
      case h_1 =>
        have h : _ = after := h
        exact absurd rfl (hafter .leftBracket (h ▸ rfl)).2
      case h_2 => rfl
    exact ⟨_, hdims, h⟩
  -- A pair of brackets, and the others behind it.
  | succ dims ih =>
    obtain ⟨span, rest, rfl, hrest⟩ := exists_of_map_token h
    obtain ⟨left, hleft, htokens⟩ := expect_eq stop hrest
    obtain ⟨last, hlast, hafter⟩ := ih htokens
    rw [parseDims]
    exact ⟨_, Except.bind_eq_ok.2 ⟨left, hleft, Except.bind_eq_ok.2 ⟨_, hlast, rfl⟩⟩, hafter⟩

/-- Behind a path without arguments stands no angle bracket. -/
private theorem head?_dimTokens_ne_less {dims : Nat} {after : List Token}
    (hafter : EndsType after) :
    (dimTokens dims ++ after).head? ≠ some .less := by
  cases dims with
  | zero => exact fun h => (hafter .less h).1 rfl
  | succ dims => exact nofun

mutual

/-- An expression is parsed from its tokens. -/
private theorem parseType_eq (stop : Nat) :
    ∀ (e : TypeExpr) {ls : List Lexeme} {after : List Token},
    ls.map (·.token) = e.tokens ++ after → EndsType after →
      ∃ rest, parseType stop ls = .ok (e, rest) ∧ rest.1.map (·.token) = after
  -- A path alone, with what follows it.
  | .mk path [] dims, ls, after, h, hafter => by
    rw [tokens, List.cons_append, List.append_assoc] at h
    obtain ⟨span, rest, rfl, hrest⟩ := exists_of_map_token h
    obtain ⟨left, hleft, hleftTokens⟩ := parseDims_eq stop hrest hafter
    -- An angle bracket would be read as the first of some arguments.
    have hless : ∀ span tail, rest = ⟨.less, span⟩ :: tail → False := by
      rintro span tail rfl
      exact head?_dimTokens_ne_less hafter (congrArg List.head? hrest).symm
    rw [parseType.eq_2 stop path span rest hless]
    exact ⟨_, Except.bind_eq_ok.2 ⟨_, hleft, rfl⟩, hleftTokens⟩
  -- A path with arguments, which are parsed between the path and the brackets.
  | .mk path (first :: others) dims, ls, after, h, hafter => by
    rw [tokens, argumentTokens, List.cons_append, List.append_assoc, List.cons_append,
      List.append_assoc] at h
    obtain ⟨_, rest, rfl, hrest⟩ := exists_of_map_token h
    obtain ⟨_, tail, rfl, htail⟩ := exists_of_map_token hrest
    obtain ⟨left, hleft, hleftTokens⟩ := parseArguments_eq stop first others htail
    obtain ⟨last, hlast, hlastTokens⟩ := parseDims_eq stop hleftTokens hafter
    rw [parseType]
    exact ⟨_, Except.bind_eq_ok.2 ⟨_, hleft, Except.bind_eq_ok.2 ⟨_, hlast, rfl⟩⟩, hlastTokens⟩
termination_by e => sizeOf e

/-- Arguments are parsed from their tokens. -/
theorem parseArguments_eq (stop : Nat) : ∀ (first : TypeExpr) (others : List TypeExpr)
    {ls : List Lexeme} {after : List Token},
    ls.map (·.token) = first.tokens ++ (otherTokens others ++ after) →
      ∃ rest, parseArguments stop ls = .ok (first :: others, rest) ∧
        rest.1.map (·.token) = after
  -- The last argument, and the angle bracket behind it.
  | first, [], ls, after, h => by
    obtain ⟨⟨left, hlt⟩, hleft, hleftTokens⟩ :=
      parseType_eq stop first h (endsType_otherTokens [] after)
    obtain ⟨last, hlast, hlastTokens⟩ := expect_eq stop hleftTokens
    obtain ⟨span, tail, rfl, -⟩ := exists_of_map_token hleftTokens
    rw [parseArguments]
    exact ⟨_, Except.bind_eq_ok.2 ⟨_, hleft, Except.bind_eq_ok.2 ⟨_, hlast, rfl⟩⟩, hlastTokens⟩
  -- An argument, a comma, and the other ones.
  | first, next :: others, ls, after, h => by
    obtain ⟨⟨left, hlt⟩, hleft, hleftTokens⟩ :=
      parseType_eq stop first h (endsType_otherTokens (next :: others) after)
    rw [otherTokens, List.cons_append, List.append_assoc] at hleftTokens
    obtain ⟨span, tail, rfl, htail⟩ := exists_of_map_token hleftTokens
    obtain ⟨last, hlast, hlastTokens⟩ := parseArguments_eq stop next others htail
    rw [parseArguments]
    exact ⟨_, Except.bind_eq_ok.2 ⟨_, hleft, Except.bind_eq_ok.2 ⟨_, hlast, rfl⟩⟩, hlastTokens⟩
termination_by first others => sizeOf first + sizeOf others + 1

end

/-- A text that spells an expression is parsed as the expression. -/
theorem parse_of_spells {source : String} {e : TypeExpr} (h : Spells source.toList e.tokens) :
    parse source = .ok e := by
  obtain ⟨ls, hls, htokens⟩ := lexemes_of_spells h 0
  obtain ⟨rest, hrest, hnil⟩ := parseType_eq source.utf8ByteSize e
    -- The expression uses all the tokens.
    (htokens.trans (List.append_nil _).symm) endsType_nil
  unfold parse
  refine Except.bind_eq_ok.2 ⟨ls, hls, Except.bind_eq_ok.2 ⟨_, hrest, ?_⟩⟩
  dsimp only
  rw [List.map_eq_nil_iff.1 hnil]
  rfl

end GraphCodec.TypeExpr
