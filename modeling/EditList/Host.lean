import EditList.FileTree

/-!
# The host of a run

`Host` names what a run asks of the operating system.  `Simulation` answers from a file tree, with the
behaviour of every program given as a function, and keeps a list of the programs that were started.
-/

namespace EditList

/-- What a run asks of the operating system. -/
class Host (m : Type → Type) where
  readFile : String → m (Except SystemError ByteArray)
  pathExists : String → m Bool
  isDirectory : String → m Bool
  /-- Makes one directory; the one that contains it must be there. -/
  makeDirectory : String → m (Except SystemError Unit)
  /-- Starts a program with arguments, waits for it and gives its exit status. -/
  launch : String → List String → m (Except SystemError UInt8)

/-- Makes the directory of the first path, and before it those of the others, each of which contains
the one before, as far as they are missing. -/
def makeDirectories {m : Type → Type} [Monad m] [Host m] :
    List Path → m (Except SystemError Unit)
  | [] => return .error .notFound
  | p :: above => do
    if p.text = "" then return .ok ()
    match ← Host.makeDirectory p.text with
    | .ok _ => return .ok ()
    | .error .notFound =>
      match ← makeDirectories above with
      | .error e => return .error e
      | .ok _ => settle p (← Host.makeDirectory p.text)
    | .error e => settle p (.error e)
where
  /-- It is no failure if the directory is there after all. -/
  settle (p : Path) : Except SystemError Unit → m (Except SystemError Unit)
    | .ok _ => return .ok ()
    | .error e => do if ← Host.isDirectory p.text then return .ok () else return .error e

/-- How programs behave: whether one starts in a tree, and if so its exit status and the tree that it
leaves. -/
abbrev Programs :=
  FileTree → String → List String → Except SystemError (UInt8 × FileTree)

/-- The largest number of bytes in one argument of a program. -/
def argumentLimit : Nat :=
  131071

/-- A program and its arguments. -/
structure Launch where
  program : String
  arguments : List String
  deriving DecidableEq, Repr

/-- The state of a simulated host. -/
structure World where
  tree : FileTree
  /-- The programs that were started, the latest first. -/
  launches : List Launch

/-- Runs on a simulated host with the given programs. -/
def Simulation (_programs : Programs) (α : Type) : Type :=
  StateM World α

namespace Simulation

variable {programs : Programs}

instance : Monad (Simulation programs) :=
  inferInstanceAs (Monad (StateM World))

/-- Answers from the tree. -/
def ask {α : Type} (f : FileTree → α) : Simulation programs α :=
  fun w => (f w.tree, w)

/-- Makes a directory in the tree. -/
def makeDirectory (path : String) : Simulation programs (Except SystemError Unit) :=
  fun w =>
    match w.tree.makeDirectory path with
    | .ok tree => (.ok (), { w with tree := tree })
    | .error e => (.error e, w)

/-- Starts a program on the tree. -/
def launch (program : String) (arguments : List String) :
    Simulation programs (Except SystemError UInt8) :=
  fun w =>
    match programs w.tree program arguments with
    | .ok (status, tree) => (.ok status, ⟨tree, ⟨program, arguments⟩ :: w.launches⟩)
    | .error e => (.error e, w)

instance : Host (Simulation programs) where
  readFile path := ask (·.read path)
  pathExists path := ask (·.contains path)
  isDirectory path := ask (·.isDirectory path)
  makeDirectory := makeDirectory
  launch := launch

end Simulation

namespace StandIn

/-- What a stand-in does to the tree when it is started from its place. -/
def run (s : StandIn) (t : FileTree) (place : Place) (arguments : List String) :
    UInt8 × FileTree :=
  if arguments.head? = some "-version" then
    (s.versionStatus, if s.removesItself then t.replace place none else t)
  else
    let log := String.join (arguments.map (· ++ "\n"))
    let logged := keep t (t.write "args.log" (.file log.toUTF8))
    let written := match arguments.getLast? with
      | some output =>
        if s.writesOutput then keep logged (logged.write output (.file "done".toUTF8)) else logged
      | none => logged
    (s.runStatus, written)
where
  /-- A file that cannot be written is passed over. -/
  keep (t : FileTree) : Except SystemError FileTree → FileTree
    | .ok t' => t'
    | .error _ => t

/-- A host on which only stand-ins can be run.  A program is found by its path, and a bare name is not
one: the directories searched for bare names are empty. -/
def programs : Programs := fun t program arguments => do
  if (program :: arguments).any hasNull then throw .nullInArgument
  if !program.toList.contains '/' then throw .notFound
  let place ← t.locate program
  match place.found with
  | some (.program s) =>
    if arguments.any (argumentLimit < ·.utf8ByteSize) then throw .argumentsTooLong
    return s.run t place arguments
  | some _ => throw .accessDenied
  | none => throw .notFound

end StandIn

end EditList
