import GraphCodec.Json.Basic
import GraphCodec.Json.SyntaxError

/-!
# Drafts of JSON values

A `Draft` is what the scanner makes of a text, whether or not the text is JSON: the tree of all
that was understood, and at the place where the text stops being JSON a `Fault`.  A reader that
goes through a draft in document order therefore meets the errors of the text in their places
among its own errors, and the first of them all wins.

A reader may pass over a member that it does not know.  What is passed over is only checked
against the grammar, which accepts numbers that are out of range and unpaired surrogates, so these
are `unreadable` leaves of a draft and not faults.

`Draft.settle` turns a draft into the value it is a draft of, or the first error in it.
-/

namespace GraphCodec.Json

/-- What the scanner makes of a text: the tree of all that was understood up to the first fault. -/
inductive Draft where
  | null
  | bool (b : Bool)
  | number (n : Number)
  | string (s : String)
  /-- A number or string that follows the grammar and has no value. -/
  | unreadable (e : SyntaxError)
  /-- Elements, and the fault found where a comma or the end of the array was due. -/
  | array (items : List Draft) (stop : Option Fault)
  /-- Members, and the fault found where a member's name or the end of the object was due. -/
  | object (members : List (Except SyntaxError String × Draft)) (stop : Option Fault)
  | fault (f : Fault)

/-- A member of an object: its name, or what is wrong with the name, and its value. -/
abbrev Draft.Member := Except SyntaxError String × Draft

/-- A draft of a whole text: its value, and whether anything follows the value. -/
structure Document where
  value : Draft
  trailing : Bool

/-- How many levels of arrays and objects may still be opened; `none` for any number. -/
abbrev Room := Option Nat

/-- The room of a reader that allows nesting of at most 127 levels. -/
def Room.bounded : Room := some 127

/-- Opens an array or an object. -/
def Room.enter : Room → Except SyntaxError Room
  | none => .ok none
  | some 0 => .error .recursionLimit
  | some (n + 1) => .ok (some n)

/-- The end of an array or object: an error if a fault was found there. -/
def Draft.stopped : Option Fault → Except SyntaxError Unit
  | none => .ok ()
  | some f => .error f.read

namespace Draft

mutual

/-- The value that a draft is a draft of, or its first error in document order. -/
def settle (room : Room) : Draft → Except SyntaxError Json
  | null => .ok .null
  | bool b => .ok (.bool b)
  | number n => .ok (.number n)
  | string s => .ok (.string s)
  | unreadable e => .error e
  | fault f => .error f.read
  | array items stop => do
    let inner ← room.enter
    let values ← settleItems inner items
    stopped stop
    return .array values
  | object members stop => do
    let inner ← room.enter
    let values ← settleMembers inner members
    stopped stop
    return .object values

/-- The values of the elements of an array. -/
def settleItems (room : Room) : List Draft → Except SyntaxError (List Json)
  | [] => .ok []
  | d :: rest => do
    let value ← d.settle room
    let values ← settleItems room rest
    return value :: values

/-- The names and values of the members of an object. -/
def settleMembers (room : Room) :
    List Draft.Member → Except SyntaxError (List (String × Json))
  | [] => .ok []
  | (key, d) :: rest => do
    let name ← key
    let value ← d.settle room
    let values ← settleMembers room rest
    return (name, value) :: values

/-- The error of a reader that passes over a draft, if the text stops being JSON in it. -/
def skip : Draft → Except SyntaxError Unit
  | null | bool _ | number _ | string _ | unreadable _ => .ok ()
  | fault f => .error f.skipped
  | array items stop => do
    skipItems items
    skipStopped stop
  | object members stop => do
    skipMembers members
    skipStopped stop

/-- Passes over the elements of an array. -/
def skipItems : List Draft → Except SyntaxError Unit
  | [] => .ok ()
  | d :: rest => do
    d.skip
    skipItems rest

/-- Passes over the members of an object. -/
def skipMembers : List Draft.Member → Except SyntaxError Unit
  | [] => .ok ()
  | (_, d) :: rest => do
    d.skip
    skipMembers rest

/-- The end of an array or object that is passed over. -/
def skipStopped : Option Fault → Except SyntaxError Unit
  | none => .ok ()
  | some f => .error f.skipped

end

end Draft

end GraphCodec.Json
