import EditList.CommandLine

/-!
# The program

`main` carries out its command line on the files of this machine.  It starts no other program: a
launch is refused as not permitted, so `render` makes its checks and then reports that the encoder
does not run.
-/

namespace EditList

/-- The reason for a refused request to this machine. -/
def SystemError.ofIO : IO.Error → SystemError
  | .noFileOrDirectory .. => .notFound
  | .noSuchThing .. => .notFound
  | .permissionDenied .. => .accessDenied
  | .alreadyExists .. => .alreadyExists
  | .inappropriateType _ 21 _ => .isADirectory
  | .inappropriateType .. => .notADirectory
  -- the one thing wrong with a path as an argument is its length
  | .invalidArgument .. => .nameTooLong
  | .resourceVanished code details => .other code.toNat details
  | e => .other 5 (toString e)

/-- The result of an action on this machine, or why it was refused. -/
def attempt {α : Type} (action : IO α) : IO (Except SystemError α) := do
  try return .ok (← action)
  catch e => return .error (.ofIO e)

/-- This machine. -/
instance : Host IO where
  readFile path := attempt (IO.FS.readBinFile path)
  pathExists path := do
    match ← attempt (IO.FS.Handle.mk path .read) with
    | .ok _ => return true
    | .error e => return e = .accessDenied
  isDirectory path := do
    -- a directory can be opened but not read
    match ← attempt (IO.FS.Handle.mk path .read) with
    | .ok handle => return !(← attempt (handle.read 1)).toBool
    | .error _ => return false
  makeDirectory path := attempt (IO.FS.createDir path)
  launch _ _ := return .error .notPermitted

end EditList

/-- Carries out the command line. -/
def main (words : List String) : IO UInt32 := do
  let outcome ← EditList.CommandLine.run (m := IO) words
  IO.print outcome.output
  IO.eprint outcome.errors
  return outcome.status.toUInt32
