import EditList.Path
import EditList.SystemError

/-!
# File trees

A tree of directories and files without links of any kind, seen from a working directory: an entry
stands in one place and has one name, so there are neither symbolic links nor hard ones.  `Place.walk`
follows the steps of a path.  It remembers the directories that it passes, so that it can turn back at
`..` and so that the tree can be put together again around a changed place (`Place.attach`).  Looking
up, reading, writing and making directories go through it and fail as the operating system does, also
for names and paths that are too long.
-/

namespace EditList

/-- A stand-in for an encoder, which only reports what it is asked to do.  Asked for its version it
exits with `versionStatus`.  Otherwise it writes its arguments to a log in the working directory,
may write its last argument as a file, and exits with `runStatus`. -/
structure StandIn where
  versionStatus : UInt8
  runStatus : UInt8
  /-- Whether it writes the file named by its last argument. -/
  writesOutput : Bool
  /-- Whether it deletes itself when asked for its version. -/
  removesItself : Bool
  deriving DecidableEq, Repr

/-- What can stand in a directory. -/
inductive Entry where
  | directory (entries : List (String × Entry))
  | file (content : ByteArray)
  /-- A file that can be run. -/
  | program (standIn : StandIn)

/-- The entries of a directory with their names. -/
abbrev Directory := List (String × Entry)

/-- The directory with another entry, or none, under one name. -/
def Directory.replace (d : Directory) (name : String) (entry : Option Entry) : Directory :=
  entry.toList.map (name, ·) ++ d.filter (·.1 ≠ name)

/-- The largest number of bytes in a name. -/
def nameLimit : Nat :=
  255

/-- The largest number of bytes in a path. -/
def pathLimit : Nat :=
  4095

/-- Whether a text has a null character. -/
def hasNull (text : String) : Bool :=
  text.toList.contains '\x00'

/-- A place in a tree: what is there, if anything, and the directories on the way to it, the innermost
first, each with the name that was taken in it. -/
structure Place where
  found : Option Entry
  way : List (String × Directory)

namespace Place

/-- The root of a tree. -/
def top (root : Directory) : Place :=
  ⟨some (.directory root), []⟩

/-- The directory that a place is in.  Above the root there is only the root. -/
def above (p : Place) : Place :=
  match p.way with
  | [] => p
  | (_, d) :: way => ⟨some (.directory d), way⟩

/-- Takes one step from a place.  Every step, also one that stays, needs a directory to start from; the
place where it leads need not exist. -/
def step (p : Place) (name : String) : Except SystemError Place :=
  match p.found with
  | some (.directory d) =>
    if isIdle name then .ok p
    else if name = ".." then .ok p.above
    else if nameLimit < name.utf8ByteSize then .error .nameTooLong
    else .ok ⟨d.lookup name, (name, d) :: p.way⟩
  | some _ => .error .notADirectory
  | none => .error .notFound

/-- Takes steps from a place, up to the first that fails. -/
def walk (p : Place) : List String → Except SystemError Place
  | [] => .ok p
  | name :: rest =>
    match p.step name with
    | .ok q => q.walk rest
    | .error e => .error e

/-- The root directory of the tree that has `entry` at the end of a way. -/
def attach (entry : Option Entry) : List (String × Directory) → Directory
  | [] =>
    match entry with
    | some (.directory d) => d
    | _ => []
  | (name, d) :: way => attach (some (.directory (Directory.replace d name entry))) way

end Place

/-- A file tree with a working directory, which is given by the names that lead to it from the root. -/
structure FileTree where
  root : Directory
  workingDirectory : List String

namespace FileTree

/-- The tree with another entry, or none, at one of its places. -/
def replace (t : FileTree) (place : Place) (entry : Option Entry) : FileTree :=
  { t with root := Place.attach entry place.way }

/-- Follows a path from where it starts. -/
def walk (t : FileTree) (p : Path) : Except SystemError Place :=
  let start := if p.origin = .root then [] else t.workingDirectory
  (Place.top t.root).walk (start ++ p.steps.reverse)

/-- Refuses a text that names no place in any tree. -/
def checkPath (path : String) : Except SystemError Unit :=
  if hasNull path then .error .nullInPath
  else if path = "" then .error .notFound
  else if pathLimit < path.utf8ByteSize then .error .nameTooLong
  else .ok ()

/-- The place of a path. -/
def locate (t : FileTree) (path : String) : Except SystemError Place := do
  checkPath path
  t.walk (Path.ofString path)

/-- What is at a path. -/
def find (t : FileTree) (path : String) : Except SystemError Entry := do
  match (← t.locate path).found with
  | some entry => return entry
  | none => throw .notFound

/-- The content of a file. -/
def read (t : FileTree) (path : String) : Except SystemError ByteArray := do
  match ← t.find path with
  | .file content => return content
  | .program _ => return .empty
  | .directory _ => throw .isADirectory

/-- Whether there is anything at a path. -/
def contains (t : FileTree) (path : String) : Bool :=
  (t.find path).toBool

/-- Whether there is a directory at a path. -/
def isDirectory (t : FileTree) (path : String) : Bool :=
  match t.find path with
  | .ok (.directory _) => true
  | _ => false

/-- The place of a path at which a new entry could be.  There is none if the path ends in no name of its
own.  Slashes at the end do not count. -/
def slot (t : FileTree) (path : String) : Except SystemError (Option Place) := do
  checkPath path
  let p := Path.ofString path
  let steps := p.steps.dropWhile (· = "")
  let place ← t.walk { p with steps := steps }
  match steps with
  | [] => return none
  | name :: _ => return if isIdle name || name = ".." then none else some place

/-- Makes a directory at a path where there is nothing. -/
def makeDirectory (t : FileTree) (path : String) : Except SystemError FileTree := do
  match ← t.slot path with
  | none => throw .alreadyExists
  | some place =>
    match place.found with
    | some _ => throw .alreadyExists
    | none => return t.replace place (some (.directory []))

/-- Puts a file or a program at a path, replacing one that is there. -/
def write (t : FileTree) (path : String) (entry : Entry) : Except SystemError FileTree := do
  match ← t.slot path with
  | none => throw .isADirectory
  | some place =>
    match place.found with
    | some (.directory _) => throw .isADirectory
    | _ =>
      -- a slash at the end asks for a directory
      if (Path.ofString path).steps.head? = some "" then throw .isADirectory
      else return t.replace place (some entry)

/-- A tree in which a chain of directories, given from the root, ends in the working directory. -/
def ofWorkingDirectory (names : List String) : FileTree where
  root := names.foldr (fun name d => [(name, .directory d)]) []
  workingDirectory := names

end FileTree

end EditList
