import GraphCodec.Decimal.Basic

/-!
# File stores

A `FileStore` is a directory with everything in it, as far as a command can see it: files by their
paths, and the directories that the paths imply.  It says what a command reads and writes without
any of it being done.
-/

namespace GraphCodec

/-- Why a file cannot be read or written. -/
inductive FileError where
  | notFound
  | permissionDenied
  | notADirectory
  | isADirectory
  | nameTooLong
  /-- Any other reason, with the number that the system has for it. -/
  | other (description : String) (code : Nat)
deriving DecidableEq, Repr

/-- The message of an error. -/
def FileError.message : FileError → String
  | notFound => text "No such file or directory" 2
  | permissionDenied => text "Permission denied" 13
  | notADirectory => text "Not a directory" 20
  | isADirectory => text "Is a directory" 21
  | nameTooLong => text "File name too long" 36
  | other description code => text description code
where
  /-- A reason and its number. -/
  text (description : String) (code : Nat) : String :=
    description ++ " (os error " ++ Decimal.natText code ++ ")"

/-- The files below a directory, each with the names that lead to it. -/
structure FileStore where
  files : List (List String × ByteArray)

/-- The names that a path is made of. -/
def pathNames (path : List Char) : List String :=
  (path.splitOn '/').map String.ofList

namespace FileStore

/-- The greatest number of bytes in a name. -/
def longestName : Nat := 255

/-- The bytes of a file. -/
def file? (s : FileStore) (names : List String) : Option ByteArray := s.files.lookup names

/-- Whether there is a directory, which is so if a file is in it or below it. -/
def isDirectory (s : FileStore) (names : List String) : Bool :=
  names.isEmpty || s.files.any fun (file, _) => names.isPrefixOf file && names.length < file.length

/-- Whether a name leads to the directory it is looked up in. -/
def isHere (name : String) : Bool := name = "" || name = "."

/-- What is found outside of the store: the directories around it, and nothing else. -/
def outside (names : List String) : Except FileError (List String) :=
  if names.all fun name => isHere name || name = ".." then .error .isADirectory
  else .error .notFound

/-- Follows names from a directory.  All but the last must lead to directories that are there. -/
def follow (s : FileStore) (directory : List String) :
    List String → Except FileError (List String)
  | [] => .ok directory
  | name :: rest =>
    let inner := directory ++ [name]
    if isHere name then s.follow directory rest
    else if name = ".." then
      if directory.isEmpty then outside rest else s.follow directory.dropLast rest
    else if longestName < name.utf8ByteSize then .error .nameTooLong
    else if rest.isEmpty then .ok inner
    else if s.isDirectory inner then s.follow inner rest
    else if (s.file? inner).isSome then .error .notADirectory
    else .error .notFound

/-- The names that a path leads to. -/
def locate (s : FileStore) (path : List Char) : Except FileError (List String) :=
  match path with
  | [] => .error .notFound
  | '/' :: _ => outside (pathNames path)
  | _ => s.follow [] (pathNames path)

/-- Reads a file. -/
def read (s : FileStore) (path : String) : Except FileError ByteArray := do
  let names ← s.locate path.toList
  if s.isDirectory names then .error .isADirectory
  else
    match s.file? names with
    | some bytes => return bytes
    | none => .error .notFound

/-- A path without the slashes at its end, and whether there were any. -/
def dropSlashes (path : List Char) : List Char × Bool :=
  let kept := (path.reverse.dropWhile (· = '/')).reverse
  (kept, kept.length < path.length)

/-- Writes a file in place of what was there.  A path with a slash at its end is that of a
directory. -/
def write (s : FileStore) (path : String) (bytes : ByteArray) : Except FileError FileStore := do
  let (front, slashed) := dropSlashes path.toList
  let names ← s.locate (if front.isEmpty then path.toList else front)
  if slashed || s.isDirectory names then .error .isADirectory
  else return ⟨(names, bytes) :: s.files.filter fun (file, _) => file ≠ names⟩

end FileStore

end GraphCodec
