/-!
# Paths

A path is kept as it was written: where it starts, and the steps between its slashes, empty ones
included.  The last step comes first, so the paths above a path are tails of its steps.  Two paths are
compared by their `components`, which leave out the steps that lead nowhere.  That is a comparison of
spellings: `a` and `./a` differ.
-/

namespace EditList

/-- Where a path starts. -/
inductive Origin where
  /-- At the working directory, without a word for it. -/
  | implicit
  /-- At the working directory, written as a dot. -/
  | here
  /-- At the root. -/
  | root
  deriving DecidableEq, Repr

/-- The text of an origin. -/
def Origin.text : Origin → String
  | .implicit => ""
  | .here => "."
  | .root => "/"

/-- A path as it is written. -/
structure Path where
  origin : Origin
  /-- What stands between the slashes after the origin, the last step first. -/
  steps : List String
  deriving DecidableEq, Repr

/-- Whether a step stays where it is. -/
def isIdle (step : String) : Bool :=
  step = "" || step = "."

namespace Path

/-- The steps between the slashes of a text, the last one first. -/
def stepsOf (cs : List Char) : List String :=
  ((cs.splitOn '/').map String.ofList).reverse

/-- Reads a path.  Every text is one. -/
def ofString (text : String) : Path :=
  match text.toList with
  | '/' :: rest => ⟨.root, stepsOf rest⟩
  | ['.'] => ⟨.here, stepsOf []⟩
  | '.' :: '/' :: rest => ⟨.here, stepsOf ('/' :: rest)⟩
  | cs => ⟨.implicit, stepsOf cs⟩

/-- The path as text. -/
def text (p : Path) : String :=
  p.origin.text ++ "/".intercalate p.steps.reverse

/-- The steps that lead somewhere, after a word for the origin if it was written. -/
def components (p : Path) : List String :=
  (if p.origin = .implicit then [] else [p.origin.text]) ++
    (p.steps.filter (!isIdle ·)).reverse

/-- The paths above one with the given steps. -/
def above (origin : Origin) : List String → List Path
  | [] => if origin = .here then [⟨.implicit, []⟩] else []
  | step :: rest =>
    if isIdle step then above origin rest
    else ⟨origin, rest.dropWhile isIdle⟩ :: above origin rest

/-- The directories that contain a path, by its spelling, the nearest first.  Above a bare name is
the empty path. -/
def ancestors (p : Path) : List Path :=
  above p.origin p.steps

/-- The directory that contains a path, by its spelling. -/
def parent? (p : Path) : Option Path :=
  p.ancestors.head?

end Path

end EditList
