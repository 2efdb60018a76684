import GraphCodec.Decimal.Numeral
import GraphCodec.Generation.Unit

/-!
# Command-line options

The arguments behind the name of a command: the path of a schema, and options in any order, of
which the last of a kind counts.  The first argument that is wrong is reported.
-/

namespace GraphCodec

/-- What is wrong with the arguments of a command. -/
inductive UsageError where
  | missingPath
  | emptyTag
  | invalidErrorLimit (text : String)
  | unknownOption (argument : String)
  | unexpectedArgument (argument : String)
deriving DecidableEq, Repr

/-- The message of an error. -/
def UsageError.message : UsageError → String
  | missingPath => "-o needs a path"
  | emptyTag => "--tag must not be empty"
  | invalidErrorLimit text => "invalid error limit '" ++ text ++ "'"
  | unknownOption argument => "unknown option '" ++ argument ++ "'"
  | unexpectedArgument argument => "unexpected argument '" ++ argument ++ "'"

/-- What the arguments of a command say. -/
structure Options where
  /-- The path of the schema. -/
  schema : Option String
  /-- The path to write to in place of the standard output. -/
  output : Option String
  config : GeneratorConfig
deriving DecidableEq, Repr

namespace Options

/-- What no arguments say. -/
def standard : Options := ⟨none, none, .standard⟩

/-- The greatest error limit, which fits into 64 bits. -/
def greatestLimit : Nat := 2 ^ (64 : Nat) - 1

/-- Reads an error limit. -/
def readLimit (text : List Char) : Except UsageError Nat :=
  match Numeral.readNat? text with
  | some n => if n ≤ greatestLimit then .ok n else refuse
  | none => refuse
where
  /-- The error for a text that is no limit. -/
  refuse : Except UsageError Nat := .error (.invalidErrorLimit (String.ofList text))

/-- What follows the name of an option and an equals sign, if an argument is such an option. -/
def optionValue? (option argument : String) : Option (List Char) :=
  (option ++ "=").toList.isPrefixOf? argument.toList

/-- Takes up an argument other than `-o`. -/
def take (o : Options) (argument : String) : Except UsageError Options :=
  match optionValue? "--tag" argument with
  | some tag =>
    if tag.isEmpty then .error .emptyTag
    else .ok { o with config := { o.config with tagMember := String.ofList tag } }
  | none =>
  match optionValue? "--suffix" argument with
  | some suffix => .ok { o with config := { o.config with codecSuffix := String.ofList suffix } }
  | none =>
  match optionValue? "--strip-prefix" argument with
  | some dropped =>
    let dropped := if dropped.isEmpty then none else some (String.ofList dropped)
    .ok { o with config := { o.config with droppedStart := dropped } }
  | none =>
  match optionValue? "--error-limit" argument with
  | some limit => do
    return { o with config := { o.config with errorLimit := ← readLimit limit } }
  | none =>
    if argument.startsWith "-" then .error (.unknownOption argument)
    else if o.schema.isNone then .ok { o with schema := some argument }
    else .error (.unexpectedArgument argument)

/-- Reads arguments from the first to the last. -/
def readFrom (o : Options) : List String → Except UsageError Options
  | [] => .ok o
  | "-o" :: path :: rest => readFrom { o with output := some path } rest
  | ["-o"] => .error .missingPath
  | argument :: rest => do readFrom (← o.take argument) rest

/-- Reads the arguments of a command. -/
def read (arguments : List String) : Except UsageError Options := standard.readFrom arguments

end Options

end GraphCodec
