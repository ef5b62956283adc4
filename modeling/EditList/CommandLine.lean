import EditList.CommandLine.Help
import EditList.Diagnosis

/-!
# The command line program

`run` carries out a command line on a host and gives what is to be shown.  The exit status is zero for
success, one for a failure and two for a command line that cannot be read.
-/

namespace EditList.CommandLine

/-- What a run leaves to be shown. -/
structure Outcome where
  status : UInt8
  output : String
  errors : String
  deriving DecidableEq, Repr

/-- The outcome of a command line that cannot be read. -/
def UsageError.outcome (e : UsageError) : Outcome :=
  ⟨2, "", s!"error: {e.message}\n\n{programUsage}\n\nFor more information, try '--help'.\n"⟩

/-- The line that lists an action. -/
def actionLine (a : Action) : String :=
  let line := Text.pad .right ' ' 3 (toString a.line)
  let verb := Text.pad .left ' ' 4 a.verb.name
  let reason := if a.reason.isEmpty then "" else s!" ({a.reason.text})"
  s!"line {line}: {verb} {a.start.text} - {a.stop.text}{reason}\n"

/-- The log of the stages that an edit list passes. -/
def stageLog (script : String) : String :=
  let tokens := tokens script
  s!"lexed filter script tokens={tokens.length}\n" ++
    match Action.ofTokens tokens with
    | .error _ => ""
    | .ok actions =>
      s!"built actions actions={actions.length}\n" ++
        match compile script with
        | .error _ => ""
        | .ok g =>
          s!"compiled filter graph nodes={g.nodes.length} segments={g.sliceCount}\n"

/-- The text that bytes encode. -/
def decode (path : String) (bytes : ByteArray) : Except Diagnosis String :=
  match String.fromUTF8? bytes with
  | some text => .ok text
  | none => .error ⟨s!"read filter script '{path}'", ["stream did not contain valid UTF-8"]⟩

variable {m : Type → Type} [Monad m] [Host m]

/-- Reads an edit list from a file. -/
def readScript (path : String) : m (Except Diagnosis String) := do
  match ← Host.readFile path with
  | .ok bytes => return decode path bytes
  | .error e => return .error ⟨s!"read filter script '{path}'", [e.message]⟩

/-- What is shown of an edit list by a command that needs no more than its text. -/
def present (describe : String → Except Diagnosis (String × String)) (verbose : Bool)
    (path : String) : m Outcome := do
  match ← readScript path with
  | .error d => return ⟨1, "", d.text⟩
  | .ok script =>
    let log := if verbose then stageLog script else ""
    match describe script with
    | .error d => return ⟨1, "", log ++ d.text⟩
    | .ok (output, errors) => return ⟨0, output, log ++ errors⟩

/-- The filter graph of an edit list. -/
def describeGraph (path script : String) : Except Diagnosis (String × String) :=
  match compileText script with
  | .ok expression => .ok (expression ++ "\n", "")
  | .error f => .error (.during s!"compile filter script '{path}'" f)

/-- The actions of an edit list, as JSON or one a line with their number after them. -/
def describeActions (json : Bool) (path script : String) : Except Diagnosis (String × String) :=
  match readActions script with
  | .ok actions =>
    if json then .ok ((Json.array (actions.map Action.json)).pretty ++ "\n", "")
    else .ok (String.join (actions.map actionLine), s!"{actions.length} action(s) ok\n")
  | .error f => .error (.during s!"check filter script '{path}'" f)

/-- Runs a job with an edit list from a file. -/
def render (verbose : Bool) (path : String) (job : Job) : m Outcome := do
  match ← readScript path with
  | .error d => return ⟨1, "", d.text⟩
  | .ok script =>
    let log := if verbose then stageLog script else ""
    match compile script with
    | .error f => return ⟨1, "", log ++ (Diagnosis.during s!"compile filter script '{path}'" f).text⟩
    | .ok graph =>
      match ← (job.run graph).run with
      | .error f => return ⟨1, "", log ++ (Diagnosis.ofFault f).text⟩
      | .ok _ => return ⟨0, "", log ++ s!"wrote {job.output}\n"⟩

/-- Carries out a request. -/
def Invocation.perform (invocation : Invocation) : m Outcome :=
  match invocation.request with
  | .help command? => return ⟨0, helpText command?, ""⟩
  | .version => return ⟨0, s!"{programName} {programVersion}\n", ""⟩
  | .graph path => present (describeGraph path) invocation.verbose path
  | .check path json => present (describeActions json path) invocation.verbose path
  | .render path job => render invocation.verbose path job

/-- Carries out a command line, given as the words after the name of the program. -/
def run (words : List String) : m Outcome :=
  match readInvocation words with
  | .error e => return e.outcome
  | .ok invocation => invocation.perform

end EditList.CommandLine
