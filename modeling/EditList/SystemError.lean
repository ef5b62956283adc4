/-!
# Errors of the operating system

Why a request to the operating system was refused.  A text with a null character cannot be handed over
at all, so that refusal has no number.
-/

namespace EditList

/-- Why a request was refused. -/
inductive SystemError where
  | notPermitted
  | notFound
  | argumentsTooLong
  | accessDenied
  | alreadyExists
  | notADirectory
  | isADirectory
  | nameTooLong
  /-- A path with a null character. -/
  | nullInPath
  /-- A program or an argument with a null character. -/
  | nullInArgument
  | other (code : Nat) (description : String)
  deriving DecidableEq, Repr

namespace SystemError

/-- The number of an error, if it comes from the operating system itself. -/
def code? : SystemError → Option Nat
  | .notPermitted => some 1
  | .notFound => some 2
  | .argumentsTooLong => some 7
  | .accessDenied => some 13
  | .alreadyExists => some 17
  | .notADirectory => some 20
  | .isADirectory => some 21
  | .nameTooLong => some 36
  | .nullInPath => none
  | .nullInArgument => none
  | .other code _ => some code

/-- The words for an error. -/
def description : SystemError → String
  | .notPermitted => "Operation not permitted"
  | .notFound => "No such file or directory"
  | .argumentsTooLong => "Argument list too long"
  | .accessDenied => "Permission denied"
  | .alreadyExists => "File exists"
  | .notADirectory => "Not a directory"
  | .isADirectory => "Is a directory"
  | .nameTooLong => "File name too long"
  | .nullInPath => "file name contained an unexpected NUL byte"
  | .nullInArgument => "nul byte found in provided data"
  | .other _ description => description

/-- What the message of an error says. -/
def message (e : SystemError) : String :=
  match e.code? with
  | some code => s!"{e.description} (os error {code})"
  | none => e.description

end SystemError

end EditList
