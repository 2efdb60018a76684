import GraphCodec.CommandLine.FileStore

/-!
# Programs

A `Program` is what a command does step by step: it reads files, writes files, and in the end shows
texts and exits.  What it does next depends on what came of the step before.  The same program runs
on a file store and on the files of the system.
-/

namespace GraphCodec

/-- What a command shows and its exit code. -/
structure Report where
  code : Nat
  stdout : String
  stderr : String
deriving DecidableEq, Repr

namespace Report

/-- A command that has succeeded. -/
def success (stdout stderr : String) : Report := ⟨0, stdout, stderr⟩

/-- A command that has failed with one message. -/
def failure (message : String) : Report := ⟨1, "", message ++ "\n"⟩

end Report

/-- What a command does. -/
inductive Program where
  | exit (report : Report)
  | read (path : String) (next : Except FileError ByteArray → Program)
  | write (path text : String) (next : Except FileError Unit → Program)

namespace Program

/-- Runs a program on a file store. -/
def run (s : FileStore) : Program → Report × FileStore
  | exit report => (report, s)
  | read path next => (next (s.read path)).run s
  | write path text next =>
    match s.write path text.toUTF8 with
    | .ok written => (next (.ok ())).run written
    | .error e => (next (.error e)).run s

end Program

end GraphCodec
