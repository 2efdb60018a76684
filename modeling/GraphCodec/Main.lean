import GraphCodec.CommandLine.Commands

/-!
# The program

Runs a command on the files of the system.
-/

namespace GraphCodec

/-- The number of an error of the system, which can come with its sign turned, and its text. -/
def systemReason : IO.Error → Nat × String
  | .noFileOrDirectory _ code details | .inappropriateType _ code details
  | .permissionDenied _ code details | .invalidArgument _ code details
  | .resourceExhausted _ code details | .alreadyExists _ code details
  | .noSuchThing _ code details =>
    (min code.toNat (2 ^ (32 : Nat) - code.toNat), details)
  | .otherError code details | .resourceBusy code details | .hardwareFault code details
  | .unsupportedOperation code details | .illegalOperation code details =>
    (min code.toNat (2 ^ (32 : Nat) - code.toNat), details)
  | e => (0, e.toString)

/-- What an error of the system says about a file. -/
def FileError.ofSystem (e : IO.Error) : FileError :=
  match systemReason e with
  | (2, _) => .notFound
  | (13, _) => .permissionDenied
  | (20, _) => .notADirectory
  | (21, _) => .isADirectory
  | (36, _) => .nameTooLong
  | (code, details) => .other details code

/-- What comes of an action on a file. -/
def attempt {α : Type} (action : IO α) : IO (Except FileError α) := do
  match ← action.toBaseIO with
  | .ok a => return .ok a
  | .error e => return .error (.ofSystem e)

/-- Runs a program on the files of the system. -/
def Program.perform : Program → IO UInt32
  | exit report => do
    IO.print report.stdout
    IO.eprint report.stderr
    return report.code.toUInt32
  | read path next => do (next (← attempt (IO.FS.readBinFile path))).perform
  | write path text next => do (next (← attempt (IO.FS.writeFile path text))).perform

end GraphCodec

/-- Runs the command that the arguments name. -/
def main (arguments : List String) : IO UInt32 := (GraphCodec.Command.program arguments).perform
