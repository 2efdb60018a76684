import GraphCodec.CommandLine.Options
import GraphCodec.CommandLine.Program

/-!
# Commands

`generate` emits the source of the codecs for the roots of a schema, `check` only reports what has
no codec, and `plan` shows the codec plans.  A command fails with the first thing that is wrong: its
arguments, the file, the schema, the types, the output.
-/

namespace GraphCodec

namespace Command

/-- The version of the program. -/
def version : String := "0.1.0-alpha.3"

/-- How the program is used. -/
def usage : String := String.join <| List.map (· ++ "\n") [
  "Tessel JSON codec generator",
  "",
  "Usage: tessel <command> <schema.json> [options]",
  "",
  "Commands:",
  "  generate <schema>    Emit Rust codec source for the schema's roots",
  "  check <schema>       Report unsupported types without emitting",
  "  plan <schema>        Print the codec plans as JSON",
  "  help                 Show this help message",
  "  version              Show version information",
  "",
  "Options:",
  "  -o <path>              Output file (default: stdout)",
  "  --tag=<member>         Polymorphic type tag member (default: _type_)",
  "  --suffix=<suffix>      Codec identity suffix (default: _JsonCodec)",
  "  --strip-prefix=<p>     Drop this field-name prefix on the wire",
  "  --error-limit=<n>      Diagnostics shown before summarizing (0: all)",
  "",
  "Set RUST_LOG=debug to trace the generator.",
  "",
  "Examples:",
  "  tessel generate zoo.json -o src/zoo_codecs.rs",
  "  tessel check zoo.json",
  "  tessel plan zoo.json --strip-prefix=my"]

/-- A program that fails with one message. -/
def fail (message : String) : Program := .exit (.failure message)

/-- The text of a file that has been read, or the message for why there is none. -/
def fileText (path : String) : Except FileError ByteArray → Except String String
  | .ok bytes =>
    match String.fromUTF8? bytes with
    | some text => .ok text
    | none => .error ("'" ++ path ++ "' contains invalid UTF-8 data")
  | .error .notFound => .error ("cannot find file '" ++ path ++ "'")
  | .error .permissionDenied => .error ("permission denied reading '" ++ path ++ "'")
  | .error e => .error ("error reading '" ++ path ++ "': " ++ e.message)

/-- The unit for a schema file that has been read, or the message for why there is none. -/
def unitOfFile (path : String) (config : GeneratorConfig) (file : Except FileError ByteArray) :
    Except String GeneratedUnit := do
  let text ← fileText path file
  let schema ← (Schema.loadText text).mapError fun e => "error: " ++ path ++ ": " ++ e.message
  (config.generateSchema schema).mapError (·.report)

/-- Generates the unit for the schema that the arguments of a command name, and goes on with it. -/
def withUnit (command : String) (arguments : List String)
    (next : Options → GeneratedUnit → Program) : Program :=
  match Options.read arguments with
  | .error e => fail ("error: " ++ e.message)
  | .ok options =>
    match options.schema with
    | none => fail ("Usage: tessel " ++ command ++ " <schema.json> [options]")
    | some path =>
      .read path fun file =>
        match unitOfFile path options.config file with
        | .error message => fail message
        | .ok unit => next options unit

/-- Writes a text to the output that the options name, with a notice if that is a file. -/
def writeOutput (options : Options) (text notice : String) : Program :=
  match options.output with
  | none => .exit (.success text "")
  | some path =>
    .write path text fun written =>
      match written with
      | .ok () => .exit (.success "" notice)
      | .error e => fail ("error writing '" ++ path ++ "': " ++ e.message)

/-- Emits the source of the codecs. -/
def generate (arguments : List String) : Program :=
  withUnit "generate" arguments fun options unit =>
    writeOutput options unit.source ("generated " ++ Decimal.natText unit.size ++ " codecs\n")

/-- Lists the codecs. -/
def check (arguments : List String) : Program :=
  withUnit "check" arguments fun _ unit =>
    let lines := unit.identities.map fun (name, identity) => name ++ " -> " ++ identity ++ "\n"
    .exit (.success
      (String.join lines ++ "ok: " ++ Decimal.natText unit.size ++ " codecs\n") "")

/-- Shows the codec plans. -/
def plan (arguments : List String) : Program :=
  withUnit "plan" arguments fun options unit =>
    writeOutput options (unit.plansText ++ "\n") ""

/-- What the program does when it is called with some arguments. -/
def program : List String → Program
  | [] => .exit (.success usage "")
  | command :: arguments =>
    match command with
    | "generate" | "gen" => generate arguments
    | "check" => check arguments
    | "plan" => plan arguments
    | "help" | "--help" | "-h" => .exit (.success usage "")
    | "version" | "--version" | "-v" => .exit (.success ("Tessel " ++ version ++ "\n") "")
    | _ => .exit ⟨1, usage, "Unknown command: " ++ command ++ "\n\n"⟩

end Command

end GraphCodec
