import GraphCodec.Json.Scanner

/-!
# The weight of a parsed value

A value that was read from a text weighs at most one more than the text has characters
(`weight_le_of_parse`), so work that goes on from a name to the value parsed from it shrinks what
is left to do.

Every state of the scanner has a weight, that of all it holds, and a character adds at most one
to it (`Scanner.weight_step`).
-/

namespace GraphCodec.Json

/-- The weight of a member's name. -/
def keyWeight : Except SyntaxError String → Nat
  | .ok s => s.length
  | .error _ => 0

namespace Draft

mutual

/-- The weight of the value that a draft stands for. -/
def weight : Draft → Nat
  | string s => 1 + s.length
  | array items _ => 1 + weightItems items
  | object members _ => 1 + weightMembers members
  | null | bool _ | number _ | unreadable _ | fault _ => 1

/-- The weights of the elements of an array together. -/
def weightItems : List Draft → Nat
  | [] => 0
  | d :: rest => d.weight + weightItems rest

/-- The weights of the members of an object together. -/
def weightMembers : List Draft.Member → Nat
  | [] => 0
  | (key, d) :: rest => 1 + keyWeight key + d.weight + weightMembers rest

end

theorem weight_pos (d : Draft) : 0 < d.weight := by
  cases d <;> simp only [weight] <;> omega

/-- The weight of items behind each other is the sum of their weights. -/
theorem weightItems_append (as bs : List Draft) :
    weightItems (as ++ bs) = weightItems as + weightItems bs := by
  induction as with
  | nil => simp [weightItems]
  | cons a as ih => simp only [List.cons_append, weightItems, ih]; omega

/-- The weight of members behind each other is the sum of their weights. -/
theorem weightMembers_append (as bs : List Draft.Member) :
    weightMembers (as ++ bs) = weightMembers as + weightMembers bs := by
  induction as with
  | nil => simp [weightMembers]
  | cons a as ih => simp only [List.cons_append, weightMembers, ih]; omega

/-- The order of items does not matter to their weight. -/
@[simp] theorem weightItems_reverse (as : List Draft) :
    weightItems as.reverse = weightItems as := by
  induction as with
  | nil => rfl
  | cons a as ih => simp only [List.reverse_cons, weightItems_append, weightItems, ih]; omega

/-- The order of members does not matter to their weight. -/
@[simp] theorem weightMembers_reverse (as : List Draft.Member) :
    weightMembers as.reverse = weightMembers as := by
  induction as with
  | nil => rfl
  | cons a as ih => simp only [List.reverse_cons, weightMembers_append, weightMembers, ih]; omega

mutual

/-- A draft weighs as much as the value it settles to. -/
theorem weight_settle {room : Room} {d : Draft} {j : Json} (h : d.settle room = .ok j) :
    j.weight = d.weight := by
  match d with
  -- A leaf settles to itself.
  | null | bool _ | number _ | string _ =>
    simp only [settle, Except.ok.injEq] at h
    subst h
    simp [Json.weight, weight]
  | unreadable _ | fault _ => simp [settle] at h
  -- The items are settled one by one, and the fault behind them is not part of the value.
  | array items stop =>
    simp only [settle, bind, Except.bind, pure, Except.pure] at h
    split at h <;> try contradiction
    split at h <;> try contradiction
    rename_i values hv
    split at h <;> try contradiction
    simp only [Except.ok.injEq] at h
    subst h
    simp only [Json.weight, weight, weight_settleItems hv]
  | object members stop =>
    simp only [settle, bind, Except.bind, pure, Except.pure] at h
    split at h <;> try contradiction
    split at h <;> try contradiction
    rename_i values hv
    split at h <;> try contradiction
    simp only [Except.ok.injEq] at h
    subst h
    simp only [Json.weight, weight, weight_settleMembers hv]

/-- Items weigh as much as the values they settle to. -/
theorem weight_settleItems {room : Room} {ds : List Draft} {js : List Json}
    (h : settleItems room ds = .ok js) : Json.weightItems js = weightItems ds := by
  match ds with
  | [] =>
    simp only [settleItems, Except.ok.injEq] at h
    subst h
    rfl
  | d :: rest =>
    simp only [settleItems, bind, Except.bind, pure, Except.pure] at h
    split at h <;> try contradiction
    rename_i value hd
    split at h <;> try contradiction
    rename_i values hr
    simp only [Except.ok.injEq] at h
    subst h
    simp only [Json.weightItems, weightItems, weight_settle hd, weight_settleItems hr]

/-- Members weigh as much as the values they settle to, with the lengths of their names. -/
theorem weight_settleMembers {room : Room}
    {ds : List Draft.Member} {js : List (String × Json)}
    (h : settleMembers room ds = .ok js) : Json.weightMembers js = weightMembers ds := by
  match ds with
  | [] =>
    simp only [settleMembers, Except.ok.injEq] at h
    subst h
    rfl
  | (key, d) :: rest =>
    simp only [settleMembers, bind, Except.bind, pure, Except.pure] at h
    split at h <;> try contradiction
    split at h <;> try contradiction
    rename_i value hd
    split at h <;> try contradiction
    rename_i values hr
    simp only [Except.ok.injEq] at h
    subst h
    simp only [Json.weightMembers, weightMembers, keyWeight, weight_settle hd,
      weight_settleMembers hr]

end

end Draft

/-! ### Strings -/

namespace Quote

/-- The length of a string's content so far. -/
def length (q : Quote) : Nat := q.reversed.length

/-- The strings that a step can lead to are at most one character longer. -/
def Step.Within (n : Nat) : Step → Prop
  | .more q => q.length ≤ n + 1
  | .closed content => keyWeight content ≤ n
  | .fault _ => True

/-- The content of a closed quote is no longer than what was read of it. -/
theorem keyWeight_content (q : Quote) : keyWeight q.content ≤ q.length := by
  unfold content
  split <;> simp [keyWeight, length]

/-- A character outside an escape adds at most one to the length of a quote. -/
theorem within_plainStep (q : Quote) (c : Char) : (q.plainStep c).Within q.length := by
  unfold plainStep
  -- The quote ends, an escape begins, the character is refused, or it is kept.
  repeat' split
  · exact q.keyWeight_content
  · simp [Step.Within, length]
  · trivial
  · simp [Step.Within, length, push]

/-- The letter behind a backslash adds at most one to the length of a quote. -/
theorem within_escapeStep (q : Quote) (c : Char) : (q.escapeStep c).Within q.length := by
  unfold escapeStep
  repeat' split
  · simp [Step.Within, length]
  · simp [Step.Within, length, push]
  · trivial

/-- A unit of four hex digits is at most one more character. -/
theorem length_unit (q : Quote) (v : Nat) (high : Option Nat) :
    (q.unit v high).length ≤ q.length + 1 := by
  unfold unit
  repeat' split
  all_goals simp [length, push, flaw]

/-- A hex digit adds at most one to the length of a quote. -/
theorem within_hexStep (q : Quote) (bytes : Nat) (value high : Option Nat) (c : Char) :
    (q.hexStep bytes value high c).Within q.length := by
  unfold hexStep
  dsimp only
  split
  · simp [Step.Within, length]
  · split
    · exact q.length_unit _ _
    · trivial

/-- A character adds at most one to the length of a quote. -/
theorem within_step (q : Quote) (c : Char) : (q.step c).Within q.length := by
  unfold step
  -- One case for each place in a quote where the scanner can be.
  split
  · exact q.within_plainStep c
  · exact q.within_escapeStep c
  · exact q.within_hexStep _ _ _ c
  -- Only a backslash may follow the first half of a pair.
  · split
    · simp [Step.Within, length]
    · exact (q.flaw .unexpectedHexEnd).within_plainStep c
  -- Only a second unit may follow the first half of a pair.
  · split
    · simp [Step.Within, length]
    · exact (q.flaw .unexpectedHexEnd).within_escapeStep c

end Quote

/-! ### The scanner -/

/-- The weight of an open array or object. -/
def Frame.weight : Frame → Nat
  | .array items => 1 + Draft.weightItems items
  | .object members key => 1 + Draft.weightMembers members + 1 + keyWeight key

namespace Scanner

/-- The weight of all open arrays and objects. -/
def framesWeight : List Frame → Nat
  | [] => 0
  | f :: rest => f.weight + framesWeight rest

/-- The weight of what a value that has ended belongs to. -/
def Ended.weight : Ended → Nat
  | .element items => 1 + Draft.weightItems items
  | .member members => 1 + Draft.weightMembers members
  | .document value => value.weight

/-- The weight of what the scanner is in the middle of. -/
def Phase.weight : Phase → Nat
  | .value => 0
  | .literal _ leaf => leaf.weight
  | .number _ => 1
  | .string q => 1 + q.length
  | .name members => 1 + Draft.weightMembers members
  | .key members q => 1 + Draft.weightMembers members + 1 + q.length
  | .colon members k => 1 + Draft.weightMembers members + 1 + keyWeight k
  | .ended e => e.weight

/-- The weight of all that the scanner holds. -/
def weight (s : Scanner) : Nat := framesWeight s.frames + s.phase.weight

/-- What a step or the end of the text leads to weighs at most this much. -/
def Within (n : Nat) : Except Document Scanner → Prop
  | .ok s => s.weight ≤ n
  | .error d => d.value.weight ≤ n

/-- A finished value weighs the same in its frame as on its own. -/
theorem weight_place (frames : List Frame) (value : Draft) :
    framesWeight (place frames value).1 + (place frames value).2.weight =
      framesWeight frames + value.weight := by
  unfold place
  split <;>
    simp only [framesWeight, Frame.weight, Ended.weight, Draft.weightItems,
      Draft.weightMembers] <;> omega

/-- A state that has just finished a value weighs what its frames and the value do. -/
theorem weight_complete (frames : List Frame) (value : Draft) :
    (complete frames value).weight = framesWeight frames + value.weight :=
  weight_place frames value

/-- The weight behind a finished value is bounded if that of its parts is. -/
theorem within_complete {n : Nat} {frames : List Frame} {value : Draft} :
    Within n (.ok (complete frames value)) ↔ framesWeight frames + value.weight ≤ n := by
  simp only [Within, weight_complete]

theorem within_mk {n : Nat} {frames : List Frame} {phase : Phase} :
    Within n (.ok ⟨frames, phase⟩) ↔ framesWeight frames + phase.weight ≤ n := Iff.rfl

theorem within_error {n : Nat} {d : Document} : Within n (.error d) ↔ d.value.weight ≤ n := Iff.rfl

/-- Closing all frames around a value keeps the weight. -/
theorem weight_close (frames : List Frame) (value : Draft) :
    (close frames value).value.weight = framesWeight frames + value.weight := by
  induction frames generalizing value with
  | nil => simp [close, framesWeight]
  -- The value of the inner frame is what the next one is closed around.
  | cons f rest ih =>
    cases f <;>
      simp only [close, ih, framesWeight, Frame.weight, Draft.weight, Draft.weightItems_reverse,
        Draft.weightMembers_reverse, Draft.weightItems, Draft.weightMembers] <;> omega

/-- An array that stops at a fault keeps the weight of its items. -/
theorem weight_stopArray (frames : List Frame) (items : List Draft) (f : Fault) :
    (stopArray frames items f).value.weight =
      framesWeight frames + (1 + Draft.weightItems items) := by
  simp [stopArray, weight_close, Draft.weight]

/-- An object that stops at a fault keeps the weight of its members. -/
theorem weight_stopObject (frames : List Frame)
    (members : List Draft.Member) (f : Fault) :
    (stopObject frames members f).value.weight =
      framesWeight frames + (1 + Draft.weightMembers members) := by
  simp [stopObject, weight_close, Draft.weight]

/-- A number weighs one. -/
theorem weight_numberDraft (d : Digits) : (numberDraft d).weight = 1 := by
  unfold numberDraft
  split <;> simp [Draft.weight]

/-- A string weighs one more than its content. -/
theorem weight_stringDraft (content : Except SyntaxError String) :
    (stringDraft content).weight = 1 + keyWeight content := by
  unfold stringDraft
  split <;> simp [Draft.weight, keyWeight]

/-- The first character of a value adds at most one. -/
theorem within_valueStep (frames : List Frame) (c : Char) :
    Within (framesWeight frames + 1) (valueStep frames c) := by
  unfold valueStep
  split
  -- A digit may begin a number; the other characters leave a value, a frame or an error.
  case h_10 =>
    split
    · simp [within_mk, Phase.weight]
    · simp [within_error, weight_close, Draft.weight]
  all_goals
    simp [within_complete, within_mk, within_error, Phase.weight, framesWeight, Frame.weight,
      Draft.weight, weight_stopArray, Draft.weightItems, Draft.weightMembers, Quote.length,
      Quote.start]
  all_goals omega

/-- A character in front of a name adds at most one. -/
theorem within_nameStep (frames : List Frame)
    (members : List Draft.Member) (c : Char) :
    Within (framesWeight frames + (1 + Draft.weightMembers members) + 1)
      (nameStep frames members c) := by
  unfold nameStep
  repeat' split
  all_goals
    simp [within_complete, within_mk, within_error, Phase.weight, Draft.weight,
      weight_stopObject, Draft.weightMembers, Quote.length, Quote.start]
  all_goals omega

/-- A character behind a value adds nothing. -/
theorem within_endedStep (frames : List Frame) (e : Ended) (c : Char) :
    Within (framesWeight frames + e.weight) (endedStep frames e c) := by
  unfold endedStep
  repeat' split
  all_goals
    simp [within_complete, within_mk, within_error, Phase.weight, Ended.weight, framesWeight,
      Frame.weight, Draft.weight, weight_stopArray, weight_stopObject]
  all_goals omega

/-- A bound on what a step leads to can be raised. -/
theorem Within.mono {n m : Nat} {r : Except Document Scanner} (h : Within n r) (hnm : n ≤ m) :
    Within m r := by
  cases r <;> simp only [Within] at h ⊢ <;> omega

/-- A character adds at most one to the weight. -/
theorem weight_step (s : Scanner) (c : Char) : Within (s.weight + 1) (s.step c) := by
  obtain ⟨frames, phase⟩ := s
  unfold step weight
  cases phase with
  -- A blank changes nothing here, and another character begins a value.
  | value =>
    simp only
    split
    · simp [within_mk, Phase.weight]
    · exact within_valueStep frames c
  | literal letters leaf =>
    simp only
    repeat' split
    all_goals
      simp [within_complete, within_mk, within_error, weight_close, Phase.weight, Draft.weight]
  -- The character may end the number, and then it is a step behind the number.
  | number d =>
    simp only
    split
    · simp [within_mk, Phase.weight]
    · simp [within_error, weight_close, Phase.weight, Draft.weight]
    · have h := within_endedStep (place frames (numberDraft d)).1
        (place frames (numberDraft d)).2 c
      rw [weight_place, weight_numberDraft] at h
      exact h.mono (by simp [Phase.weight])
  | string q =>
    -- What the quote gains bounds what the scanner gains.
    have h := q.within_step c
    simp only
    split <;> rename_i heq <;> rw [heq] at h <;>
      simp only [Quote.Step.Within] at h <;>
      simp only [within_complete, within_mk, within_error, weight_close, weight_stringDraft,
        Phase.weight, Draft.weight] <;> omega
  | name members =>
    -- A blank, or the character in front of a name.
    simp only
    split
    · simp [within_mk, Phase.weight]
    · exact within_nameStep frames members c
  | key members q =>
    -- The name of a member is a quote as well.
    have h := q.within_step c
    simp only
    split <;> rename_i heq <;> rw [heq] at h <;>
      simp only [Quote.Step.Within] at h <;>
      simp only [within_mk, within_error, weight_stopObject, Phase.weight] <;> omega
  | colon members k =>
    simp only
    repeat' split
    all_goals
      simp [within_mk, within_error, weight_close, Phase.weight, framesWeight, Frame.weight,
        Draft.weight]
    all_goals omega
  | ended e =>
    exact (within_endedStep frames e c).mono (by simp [Phase.weight])

/-- The end of the text behind a value adds nothing. -/
theorem weight_endedFinish (frames : List Frame) (e : Ended) :
    (endedFinish frames e).value.weight ≤ framesWeight frames + e.weight := by
  unfold endedFinish
  split <;> simp [weight_stopArray, weight_stopObject, Ended.weight]

/-- The end of the text adds at most one to the weight. -/
theorem weight_finish (s : Scanner) : s.finish.value.weight ≤ s.weight + 1 := by
  obtain ⟨frames, phase⟩ := s
  unfold finish
  cases phase with
  -- The text ends where a value is missing: the frames are closed around a fault.
  | value =>
    simp only
    split <;>
      simp only [weight_stopArray, weight_close, weight, Phase.weight, framesWeight,
        Frame.weight, Draft.weightItems, Draft.weight] <;> omega
  | number d =>
    simp only
    split
    -- The number ends with the text, so it is placed first.
    · refine Nat.le_succ_of_le (Nat.le_trans (weight_endedFinish _ _) ?_)
      rw [weight_place, weight_numberDraft]
      simp [weight, Phase.weight]
    · simp [weight_close, weight, Phase.weight, Draft.weight]
  | name members =>
    cases members <;>
      simp only [weight_stopObject, weight, Phase.weight, Draft.weightMembers] <;> omega
  | ended e =>
    exact Nat.le_succ_of_le (weight_endedFinish frames e)
  -- The text ends inside a token, which is an error.
  | literal _ _ | string _ | key _ _ | colon _ _ =>
    simp only [weight_stopObject, weight_close, weight, Phase.weight, framesWeight,
      Frame.weight, Draft.weight]
    omega

/-- The value of a text weighs at most one more than what was held and what is left to read. -/
theorem weight_run (s : Scanner) (cs : List Char) :
    (s.run cs).value.weight ≤ s.weight + cs.length + 1 := by
  induction cs generalizing s with
  | nil => exact s.weight_finish
  | cons c rest ih =>
    -- The first character adds at most one, and by induction the rest at most its length.
    have h := s.weight_step c
    simp only [run, List.length_cons]
    split
    · rename_i s' heq
      rw [heq] at h
      have := ih s'
      simp only [Within] at h
      omega
    · rename_i d heq
      rw [heq] at h
      simp only [Within] at h
      omega

end Scanner

/-- A value weighs at most one more than the text it was read from has characters. -/
theorem weight_le_of_parse {text : String} {j : Json} (h : parse text = .ok j) :
    j.weight ≤ text.length + 1 := by
  unfold parse Document.read at h
  simp only [bind, Except.bind, pure, Except.pure] at h
  split at h <;> try contradiction
  -- The settled value weighs as much as the draft that the scan left.
  rename_i value hv
  split at h <;> try contradiction
  simp only [Except.ok.injEq] at h
  subst h
  rw [Draft.weight_settle hv]
  have := Scanner.start.weight_run text.toList
  simpa [Document.scan, Scanner.start, Scanner.weight, Scanner.framesWeight,
    Scanner.Phase.weight, String.length_toList] using this

end GraphCodec.Json
