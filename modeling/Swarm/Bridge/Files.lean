import Swarm.Bytes

/-!
# Files

Scripts are loaded from files that are named by paths. A directory in memory is
a list of files with their paths; the directories inside it are those that the
paths go through. Around it there are other directories, of which nothing is
known but that they hold none of its files.
-/

namespace Swarm

/-- Why a file cannot be read. -/
inductive FileError where
  | notFound
  /-- The path goes on after a file. -/
  | notADirectory
  | isADirectory
  /-- The path or a name in it is too long. -/
  | invalidFilename
  /-- The path has a zero character. -/
  | invalidInput
  | other (message : String)
  deriving DecidableEq, Repr

/-- The wording of an error. -/
def FileError.message : FileError → String
  | .notFound => "No such file or directory (os error 2)"
  | .notADirectory => "Not a directory (os error 20)"
  | .isADirectory => "Is a directory (os error 21)"
  | .invalidFilename => "File name too long (os error 36)"
  | .invalidInput => "file name contained an unexpected NUL byte"
  | .other message => message

/-- The files that can be read. -/
abbrev Files := String → Except FileError Bytes

/-- A directory: its files with their paths. -/
abbrev Directory := List (String × Bytes)

namespace Directory

/-- Where the beginning of a path leads. -/
inductive Place where
  /-- The directory that the names lead down to. -/
  | inside (names : List String)
  /-- A directory around the one in memory. -/
  | outside
  /-- A file. -/
  | file (bytes : Bytes)

/-- The greatest number of bytes in a name. -/
def maxName : Nat := 255

/-- The number of bytes from which on a path is too long. -/
def pathLimit : Nat := 4096

/-- The names that the path of a file goes through. -/
def route (path : String) : List String :=
  (path.splitOn "/").filter fun name => name != "" && name != "."

/-- What names lead down to. -/
def find (d : Directory) (names : List String) : Except FileError Place :=
  match d.find? fun file => route file.1 == names with
  | some file => .ok (.file file.2)
  | none =>
    if d.any fun file => names.isPrefixOf (route file.1) then .ok (.inside names)
    else .error .notFound

/-- Follow a name. An empty name and a dot stay where they are, two dots go up. -/
def follow (d : Directory) (place : Place) (name : String) : Except FileError Place :=
  match place with
  | .file _ => .error .notADirectory
  | .outside =>
    if name ∈ ["", ".", ".."] then .ok .outside
    else if maxName < name.utf8ByteSize then .error .invalidFilename
    else .error .notFound
  | .inside names =>
    if name ∈ ["", "."] then .ok place
    else if name = ".." then .ok (if names.isEmpty then .outside else .inside names.dropLast)
    else if maxName < name.utf8ByteSize then .error .invalidFilename
    else d.find (names ++ [name])

/-- Where a path begins. -/
def start (path : String) : Place := if path.startsWith "/" then .outside else .inside []

/-- The files of a directory, with paths that begin in it. -/
def files (d : Directory) : Files := fun path => do
  if path.contains '\x00' then throw .invalidInput
  if path = "" then throw .notFound
  if pathLimit ≤ path.utf8ByteSize then throw .invalidFilename
  match ← (path.splitOn "/").foldlM d.follow (start path) with
  | .file bytes => return bytes
  | _ => throw .isADirectory

end Directory

end Swarm
