import Codemod.Text.Parts

/-!
Files as a program sees them: contents by path, and the directory it runs in. A directory is there
because files are in it, or because it is listed. A path is followed part by part, and only
directories lead on.
-/

namespace Codemod

-- What reading a file gives: its text, or why it cannot be read.
inductive Contents where
  | text (source : String)
  | unreadable (reason : String)
deriving DecidableEq, Repr

structure Disk where
  /-- Text in front of every absolute path. -/
  base : String := ""
  /-- Names from the base down to the working directory. -/
  workingDirectory : List String := []
  files : List (List String × Contents)
  /-- Directories that are there even without files in them. -/
  directories : List (List String) := []
  /-- Paths that cannot be written to, with the reason. -/
  refusals : List (String × String) := []
  /-- Directories whose entries cannot be listed, with the reason. -/
  unlisted : List (List String × String) := []

inductive Found where
  | file (contents : Contents)
  | directory (place : List String)
  | missing
  /-- The path goes on below a file. -/
  | notADirectory
deriving DecidableEq, Repr

namespace Disk

def contents? (disk : Disk) (place : List String) : Option Contents :=
  disk.files.lookup place

def isDirectory (disk : Disk) (place : List String) : Bool :=
  place.isEmpty || disk.directories.contains place ||
    disk.files.any fun file => place.length < file.1.length && place.isPrefixOf file.1

def at? (disk : Disk) (place : List String) : Found :=
  match disk.contents? place with
  | some contents => .file contents
  | none => if disk.isDirectory place then .directory place else .missing

def follow (disk : Disk) : List String → List String → Found × List String
  | place, [] => (disk.at? place, place)
  | place, part :: rest =>
      match disk.at? place with
      | .directory _ =>
          if part = "" ∨ part = "." then disk.follow place rest
          else if part = ".." then disk.follow place.dropLast rest
          else disk.follow (place ++ [part]) rest
      | .file _ => (.notADirectory, place)
      | found => (found, place)

/-- The parts of a path and the place they start from; absolute paths outside the base lead
nowhere. -/
def start? (disk : Disk) (path : String) : Option (List String × List String) :=
  if path.startsWith "/" || (disk.base ≠ "" && path.startsWith disk.base) then
    if path.startsWith disk.base then
      some ([], Text.parts (String.ofList (path.toList.drop disk.base.length)))
    else none
  else if path = "" then none
  else some (disk.workingDirectory, Text.parts path)

def resolve (disk : Disk) (path : String) : Found × List String :=
  match disk.start? path with
  | some (place, parts) => disk.follow place parts
  | none => (.missing, [])

def find (disk : Disk) (path : String) : Found :=
  (disk.resolve path).1

def absolute (disk : Disk) (place : List String) : String :=
  disk.base ++ String.join (place.map ("/" ++ ·))

def join (path name : String) : String :=
  if path.endsWith "/" then path ++ name else path ++ "/" ++ name

def names (disk : Disk) (place : List String) : List String :=
  let below := (disk.files.map Prod.fst ++ disk.directories).filterMap fun other =>
    if place.isPrefixOf other then other[place.length]? else none
  below.eraseDups.mergeSort fun a b => decide (a ≤ b)

/-- Files below a place to the given depth, as paths that start with the one given. The first
directory on the way that cannot be listed is the answer. -/
def filesBelow (disk : Disk) : Nat → String → List String → Except String (List String)
  | 0, _, _ => .ok []
  | depth + 1, path, place =>
      match disk.at? place, disk.unlisted.lookup place with
      | .file _, _ => .ok [path]
      | .directory _, some reason =>
          -- The reason is told by the walk, and again as the cause of what it tells.
          .error s!"IO error for operation on {path}: {reason}: {reason}"
      | .directory _, none => do
          let found ← (disk.names place).mapM fun name =>
            disk.filesBelow depth (join path name) (place ++ [name])
          return found.flatten
      | _, _ => .ok []

-- No path has more parts than this.
def depth (disk : Disk) : Nat :=
  (disk.files.map fun file => file.1.length).foldl max 0 + 1

def walk (disk : Disk) (path : String) (place : List String) : Except String (List String) :=
  disk.filesBelow disk.depth path place

def read (disk : Disk) (path : String) : Except String String :=
  match disk.find path with
  | .file (.text source) => .ok source
  | .file (.unreadable reason) => .error reason
  | .directory _ => .error "Is a directory (os error 21)"
  | .missing => .error "No such file or directory (os error 2)"
  | .notADirectory => .error "Not a directory (os error 20)"

def upward (place : List String) : List (List String) :=
  (List.range (place.length + 1)).map fun up => place.take (place.length - up)

-- The nearest place upward from the working directory where a file of this name is.
def nearest? (disk : Disk) (name : String) : Option (List String) :=
  ((upward disk.workingDirectory).map fun place => place ++ [name]).find? fun place =>
    (disk.contents? place).isSome || disk.isDirectory place

end Disk

end Codemod
