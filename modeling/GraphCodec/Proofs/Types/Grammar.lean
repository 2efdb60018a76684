import Mathlib.Data.List.Chain
import GraphCodec.Proofs.Types.Spelling

/-!
# The grammar of type expressions

A text renders some tokens if it consists of the characters of the tokens in order, with any blanks
before, between and behind them (`TypeExpr.Renders`).  A text is parsed as an expression exactly if
it renders the tokens of the expression (`TypeExpr.parse_eq_ok_iff_renders`).

That a path goes on as far as it can, which `TypeExpr.Spells` asks for, is no restriction: no two
paths stand next to each other in an expression, and no other token continues one
(`TypeExpr.Renders.spells`).
-/

namespace GraphCodec.TypeExpr

/-! ### Renderings of tokens -/

/-- The characters of a token. -/
def Token.chars : Token → List Char
  | path text => text.toList
  | less => ['<']
  | greater => ['>']
  | comma => [',']
  | leftBracket => ['[']
  | rightBracket => [']']

/-- Whether a token can stand in a text: what a path names must be a path. -/
def Token.IsLexeme : Token → Prop
  | path text => IsPath text.toList
  | _ => True

/-- Whether a text consists of some tokens with any blanks around them. -/
inductive Renders : List Char → List Token → Prop where
  | done : Renders [] []
  | blank {c : Char} {cs : List Char} {tokens : List Token} : isSpace c → Renders cs tokens →
    Renders (c :: cs) tokens
  | token {t : Token} {cs : List Char} {tokens : List Token} : t.IsLexeme → Renders cs tokens →
    Renders (t.chars ++ cs) (t :: tokens)

/-- The token that a character is has that character. -/
private theorem Token.chars_of_ofChar? {c : Char} {t : Token} (h : Token.ofChar? c = some t) :
    t.chars = [c] ∧ t.IsLexeme := by
  unfold Token.ofChar? at h
  split at h
  case h_6 => cases h
  all_goals
    cases h
    exact ⟨rfl, trivial⟩

/-- A token that is no path is a single character. -/
private theorem Token.exists_ofChar? {t : Token} (h : ∀ text, t ≠ .path text) :
    ∃ c, t.chars = [c] ∧ Token.ofChar? c = some t := by
  -- One character for each symbol.
  cases t with
  | path text => exact absurd rfl (h text)
  | less => exact ⟨'<', rfl, rfl⟩
  | greater => exact ⟨'>', rfl, rfl⟩
  | comma => exact ⟨',', rfl, rfl⟩
  | leftBracket => exact ⟨'[', rfl, rfl⟩
  | rightBracket => exact ⟨']', rfl, rfl⟩

/-- A text renders the tokens that it is split into. -/
private theorem renders_of_lexemes {start : Nat} {cs : List Char} {ls : List Lexeme}
    (h : lexemes start cs = .ok ls) : Renders cs (ls.map (·.token)) := by
  induction start, cs using lexemes.induct generalizing ls with
  -- The text has ended.
  | case1 start =>
    rw [lexemes] at h
    cases h
    exact .done
  -- A blank is left out.
  | case2 start c rest hspace ih =>
    rw [lexemes, if_pos hspace] at h
    exact .blank hspace (ih h)
  | case3 start c rest hspace hstart path' stop =>
    rename_i ih
    rw [lexemes, if_neg hspace, if_pos hstart] at h
    obtain ⟨more, hmore, h⟩ := Except.bind_eq_ok.1 h
    cases h
    -- A path goes on as far as it can, and the rest of the text is split behind it.
    have hident : IsIdent [c] := .mk hstart (List.forall_mem_nil _)
    have hpath : IsPath ([c] ++ (splitPath rest).1) := isPath_append_splitPath (.inl hident)
    have htoken := Renders.token (t := .path (String.ofList (c :: (splitPath rest).1)))
      (by rwa [Token.IsLexeme, String.toList_ofList]) (ih hmore)
    rwa [Token.chars, String.toList_ofList, List.cons_append, splitPath_append] at htoken
  -- A symbol is one character.
  | case4 start c rest hspace hstart token htoken ih =>
    rw [lexemes, if_neg hspace, if_neg hstart, htoken] at h
    obtain ⟨more, hmore, h⟩ := Except.bind_eq_ok.1 h
    cases h
    obtain ⟨hchars, hlexeme⟩ := Token.chars_of_ofChar? htoken
    have hrenders := Renders.token hlexeme (ih hmore)
    rwa [hchars] at hrenders
  -- Any other character is refused.
  | case5 start c rest hspace hstart htoken =>
    rw [lexemes, if_neg hspace, if_neg hstart, htoken] at h
    cases h

/-- Paths are the only tokens of a text that name anything. -/
theorem Renders.isLexeme {cs : List Char} {tokens : List Token} (h : Renders cs tokens) :
    ∀ t ∈ tokens, t.IsLexeme := by
  induction h with
  | done => exact List.forall_mem_nil _
  | blank _ _ ih => exact ih
  | token hlexeme _ ih => exact List.forall_mem_cons.2 ⟨hlexeme, ih⟩

/-! ### Paths side by side -/

/-- Whether two tokens may stand next to each other without a blank. -/
def Token.Apart (t u : Token) : Prop := (∀ text, t ≠ .path text) ∨ ∀ text, u ≠ .path text

/-- Whether the first of some tokens is no path. -/
def BeginsApart (tokens : List Token) : Prop := ∀ t ∈ tokens.head?, ∀ text, t ≠ .path text

/-- Tokens that begin with a symbol begin apart from a path. -/
private theorem beginsApart_cons {t : Token} (ht : ∀ text, t ≠ .path text) (tokens : List Token) :
    BeginsApart (t :: tokens) := by
  intro u hu
  cases hu
  exact ht

/-- Where tokens other than a path begin, a path can end. -/
private theorem Renders.endsPath {cs : List Char} {tokens : List Token} (h : Renders cs tokens)
    (hpath : BeginsApart tokens) : EndsPath cs := by
  -- By what the text begins with.
  cases h with
  | done => exact endsPath_nil
  -- No blank continues a path.
  | @blank c _ _ hspace =>
    intro d hd
    cases hd
    simp only [isSpace, Bool.or_eq_true, decide_eq_true_eq] at hspace
    rcases hspace with ((rfl | rfl) | rfl) | rfl <;> decide
  -- The token is no path, so it is one of the five symbols.
  | @token t _ _ _ =>
    obtain ⟨c, hchars, htoken⟩ := Token.exists_ofChar? (hpath t rfl)
    rw [hchars]
    intro d hd
    cases hd
    unfold Token.ofChar? at htoken
    split at htoken
    case h_6 => cases htoken
    all_goals decide

/-- In a rendering of tokens among which no paths stand next to each other, every path goes on as
far as it can. -/
theorem Renders.spells {cs : List Char} {tokens : List Token} (h : Renders cs tokens)
    (hapart : tokens.IsChain Token.Apart) : Spells cs tokens := by
  -- Blanks and tokens in turn, from the front.
  induction h with
  | done => exact .done
  | blank hspace _ ih => exact .blank hspace (ih hapart)
  | @token t cs tokens hlexeme hrest ih =>
    have hspells := ih hapart.tail
    cases t with
    -- The next token is no path, so this one ends where it stands.
    | path text =>
      have hends : EndsPath cs := by
        refine hrest.endsPath fun u hu => ?_
        have hpair := (List.isChain_cons.1 hapart).1 u hu
        exact hpair.resolve_left fun h => h text rfl
      have hpath := Spells.path hlexeme hends hspells
      rwa [String.ofList_toList] at hpath
    | less | greater | comma | leftBracket | rightBracket => exact .symbol rfl hspells

variable {after : List Token}

/-- A path may stand before tokens that begin apart from it. -/
private theorem isChain_cons_path (path : String) (hbegins : BeginsApart after)
    (hafter : after.IsChain Token.Apart) : (.path path :: after : List Token).IsChain Token.Apart :=
  List.isChain_cons.2 ⟨fun u hu => .inr (hbegins u hu), hafter⟩

/-- A symbol may stand before any tokens. -/
private theorem isChain_cons_symbol {t : Token} (ht : ∀ text, t ≠ .path text)
    (hafter : after.IsChain Token.Apart) : (t :: after).IsChain Token.Apart :=
  List.isChain_cons.2 ⟨fun _ _ => .inl ht, hafter⟩

/-- The brackets of an array may stand before any tokens. -/
private theorem isChain_dimTokens (dims : Nat) (hafter : after.IsChain Token.Apart) :
    (dimTokens dims ++ after).IsChain Token.Apart := by
  induction dims with
  | zero => exact hafter
  | succ dims ih =>
    rw [dimTokens]
    exact isChain_cons_symbol nofun (isChain_cons_symbol nofun ih)

/-- Behind brackets, or without them, the tokens begin apart from a path. -/
private theorem beginsApart_dimTokens (dims : Nat) (hbegins : BeginsApart after) :
    BeginsApart (dimTokens dims ++ after) := by
  cases dims with
  | zero => exact hbegins
  | succ dims => exact beginsApart_cons (t := .leftBracket) nofun _

mutual

/-- The paths of an expression stand apart. -/
private theorem isChain_tokens : ∀ (e : TypeExpr) {after : List Token}, BeginsApart after →
    after.IsChain Token.Apart → (e.tokens ++ after).IsChain Token.Apart
  | .mk path [] dims, after, hbegins, hafter => by
    -- A path alone: behind it stand brackets or what comes after the expression.
    rw [tokens, argumentTokens, List.nil_append, List.cons_append]
    exact isChain_cons_path path (beginsApart_dimTokens dims hbegins)
      (isChain_dimTokens dims hafter)
  | .mk path (first :: others) dims, after, _, hafter => by
    rw [tokens, argumentTokens, List.cons_append, List.cons_append, List.cons_append,
      List.append_assoc, List.append_assoc]
    -- A path with arguments: behind it stands a bracket.
    exact isChain_cons_path path (beginsApart_cons (t := .less) nofun _)
      (isChain_cons_symbol nofun (isChain_arguments first others (isChain_dimTokens dims hafter)))
termination_by e => sizeOf e

/-- The paths of some arguments stand apart. -/
theorem isChain_arguments : ∀ (first : TypeExpr) (others : List TypeExpr) {after : List Token},
    after.IsChain Token.Apart →
      (first.tokens ++ (otherTokens others ++ after)).IsChain Token.Apart
  | first, [], after, hafter => by
    -- The last argument is followed by the closing bracket.
    rw [otherTokens]
    exact isChain_tokens first (beginsApart_cons (t := .greater) nofun _)
      (isChain_cons_symbol nofun hafter)
  | first, next :: others, after, hafter => by
    rw [otherTokens, List.cons_append, List.append_assoc]
    -- Any other argument is followed by a comma.
    exact isChain_tokens first (beginsApart_cons (t := .comma) nofun _)
      (isChain_cons_symbol nofun (isChain_arguments next others hafter))
termination_by first others => sizeOf first + sizeOf others + 1

end

/-! ### Tokens of what is parsed -/

/-- The token that is expected is the first one. -/
private theorem tokens_of_expect {stop : Nat} {token : Token} {ls : List Lexeme} {rest : Rest ls}
    (h : expect stop token ls = .ok rest) :
    ls.map (·.token) = token :: rest.1.map (·.token) := by
  -- The tokens may have ended, or begin with another one.
  unfold expect at h
  split at h
  · cases h
  · split at h
    case isTrue htoken =>
      cases h
      rw [List.map_cons, htoken]
    case isFalse => cases h

/-- The brackets that are read are the first tokens. -/
private theorem tokens_of_parseDims {stop : Nat} {ls : List Lexeme} {dims : Nat}
    {rest : { rest : List Lexeme // rest.length ≤ ls.length }}
    (h : parseDims stop ls = .ok (dims, rest)) :
    ls.map (·.token) = dimTokens dims ++ rest.1.map (·.token) := by
  -- Pair by pair.
  induction ls using parseDims.induct generalizing dims with
  | case1 span tail ih =>
    -- A pair of brackets, and those behind it.
    rw [parseDims] at h
    obtain ⟨after, hafter, h⟩ := Except.bind_eq_ok.1 h
    obtain ⟨⟨dims', left, hleft⟩, hdims, h⟩ := Except.bind_eq_ok.1 h
    cases h
    rw [List.map_cons, tokens_of_expect hafter, ih after hdims]
    rfl
  | case2 ls hne =>
    -- Anything else is left over.
    rw [parseDims.eq_def] at h
    split at h
    case h_1 span tail => exact (hne span tail rfl).elim
    case h_2 =>
      cases h
      rfl

/-- What is parsed from tokens has these tokens, up to those that are left. -/
private theorem tokens_of_parse (stop : Nat) :
    (∀ ls e (rest : Rest ls), parseType stop ls = .ok (e, rest) →
      ls.map (·.token) = e.tokens ++ rest.1.map (·.token)) ∧
    ∀ ls es (rest : Rest ls), parseArguments stop ls = .ok (es, rest) →
      .less :: ls.map (·.token) = argumentTokens es ++ rest.1.map (·.token) ∧ es ≠ [] := by
  -- The cases are those of the parser: a path with arguments, a path alone, anything else, and the
  -- arguments.
  refine parseType.mutual_induct (fun ls => ∀ e (rest : Rest ls),
    parseType stop ls = .ok (e, rest) → ls.map (·.token) = e.tokens ++ rest.1.map (·.token))
    (fun ls => ∀ es (rest : Rest ls), parseArguments stop ls = .ok (es, rest) →
      .less :: ls.map (·.token) = argumentTokens es ++ rest.1.map (·.token) ∧ es ≠ [])
    ?_ ?_ ?_ ?_
  -- A path with arguments.
  · intro path span span' tail ih e rest h
    rw [parseType] at h
    obtain ⟨⟨arguments, after⟩, harguments, h⟩ := Except.bind_eq_ok.1 h
    obtain ⟨⟨dims, left, hleft⟩, hdims, h⟩ := Except.bind_eq_ok.1 h
    cases h
    obtain ⟨htokens, -⟩ := ih arguments after harguments
    rw [List.map_cons, List.map_cons, htokens, tokens_of_parseDims hdims, tokens,
      List.cons_append, List.append_assoc]
  -- A path alone.
  · intro path span tail hne e rest h
    rw [parseType.eq_2 stop path span tail hne] at h
    obtain ⟨⟨dims, left, hleft⟩, hdims, h⟩ := Except.bind_eq_ok.1 h
    cases h
    rw [List.map_cons, tokens_of_parseDims hdims]
    rfl
  -- Anything else is refused.
  · intro ls hless hpath e rest h
    rw [parseType.eq_3 stop ls hless hpath] at h
    cases h
  -- The arguments: a first one, and a comma or the closing bracket behind it.
  · intro ls ihFirst ihRest es rest h
    rw [parseArguments] at h
    obtain ⟨⟨first, after⟩, hfirst, h⟩ := Except.bind_eq_ok.1 h
    have htokens := ihFirst first after hfirst
    dsimp only at h
    split at h
    -- A comma: the other arguments follow.
    case h_1 span tail htail =>
      obtain ⟨⟨others, left⟩, hothers, h⟩ := Except.bind_eq_ok.1 h
      cases h
      obtain ⟨hrest, hne⟩ := ihRest after span tail htail others left hothers
      cases others with
      | nil => exact absurd rfl hne
      | cons next others =>
        have hrest := (List.cons.inj hrest).2
        rw [htail, List.map_cons, hrest] at htokens
        rw [htokens, argumentTokens, otherTokens]
        simp
    -- The closing bracket ends the arguments.
    case h_2 =>
      obtain ⟨left, hleft, h⟩ := Except.bind_eq_ok.1 h
      cases h
      rw [htokens, tokens_of_expect hleft, argumentTokens, otherTokens]
      simp

/-! ### Parsing -/

/-- What is parsed is rendered by its text. -/
theorem renders_of_parse {source : String} {e : TypeExpr} (h : parse source = .ok e) :
    Renders source.toList e.tokens := by
  obtain ⟨ls, hls, h⟩ := Except.bind_eq_ok.1 h
  obtain ⟨⟨e', rest⟩, he, h⟩ := Except.bind_eq_ok.1 h
  dsimp only at h
  split at h
  -- All tokens are used up.
  case h_1 hrest =>
    cases h
    have htokens := (tokens_of_parse _).1 ls _ rest he
    rw [hrest, List.map_nil, List.append_nil] at htokens
    exact htokens ▸ renders_of_lexemes hls
  -- Tokens that are left over are refused.
  case h_2 => cases h

/-- A text is parsed as an expression exactly if it renders the tokens of the expression, which are
those of no other expression. -/
theorem parse_eq_ok_iff_renders (source : String) (e : TypeExpr) :
    (parse source = .ok e ↔ Renders source.toList e.tokens) ∧
      ∀ d : TypeExpr, Renders source.toList e.tokens → Renders source.toList d.tokens → d = e := by
  -- Whatever the text renders is what it is parsed as.
  have hback : ∀ d : TypeExpr, Renders source.toList d.tokens → parse source = .ok d := by
    intro d hd
    have hapart : (d.tokens ++ []).IsChain Token.Apart := isChain_tokens d nofun .nil
    rw [List.append_nil] at hapart
    exact parse_of_spells (hd.spells hapart)
  -- The two expressions are parsed from one text.
  refine ⟨⟨renders_of_parse, hback e⟩, fun d he hd => ?_⟩
  exact Except.ok.inj ((hback d hd).symm.trans (hback e he))

end GraphCodec.TypeExpr
