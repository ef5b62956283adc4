import EditList.CommandLine.Words
import EditList.Job

/-!
# Requests

The commands of the program, their parameters, and the reading of a whole command line into a
request.
-/

namespace EditList.CommandLine

/-- The commands of the program. -/
inductive Command where
  /-- Runs the encoder with an edit list. -/
  | render
  /-- Shows the filter graph of an edit list. -/
  | graph
  /-- Checks an edit list and lists its actions. -/
  | check
  deriving DecidableEq, Repr

namespace Command

/-- All commands. -/
def all : List Command :=
  [render, graph, check]

/-- The word for a command. -/
def name : Command → String
  | .render => "render"
  | .graph => "graph"
  | .check => "check"

/-- What the help says of a command. -/
def summary : Command → String
  | .render => "Apply a filter script to a media file (requires `ffmpeg` on PATH)"
  | .graph => "Print the compiled ffmpeg filter graph without running ffmpeg"
  | .check => "Parse and validate a filter script, then list its actions"

/-- The command that a word names. -/
def ofName? (word : String) : Option Command :=
  all.find? (·.name = word)

end Command

/-- The flag that asks for a log of the stages, before or after the command. -/
def verboseFlag : Parameter :=
  ⟨"verbose", some 'v', .flag, false, "Log pipeline stages to stderr"⟩

/-- The flag that asks for help. -/
def helpFlag : Parameter :=
  ⟨"help", some 'h', .inquiry .help, false, "Print help"⟩

/-- The flag that asks for the version. -/
def versionFlag : Parameter :=
  ⟨"version", some 'V', .inquiry .version, false, "Print version"⟩

/-- The path of the edit list. -/
def filterParameter : Parameter :=
  ⟨"filter", none, .path, true, "Filter script with one cut/mute per line"⟩

/-- The parameters that may stand before a command. -/
def programParameters : List Parameter :=
  [verboseFlag, helpFlag, versionFlag]

/-- The parameters of a command. -/
def Command.parameters : Command → List Parameter
  | .render =>
    [⟨"in", none, .path, true, "Input media file"⟩,
      ⟨"out", none, .path, true, "Output media file"⟩,
      filterParameter,
      ⟨"force", some 'f', .flag, false, "Overwrite output if it already exists"⟩,
      ⟨"ffmpeg", none, .path, false, "ffmpeg executable to run [default: ffmpeg]"⟩,
      ⟨"silence", none, .text, false, "lavfi source used for muted audio [default: anullsrc]"⟩,
      verboseFlag, helpFlag]
  | .graph => [filterParameter, verboseFlag, helpFlag]
  | .check =>
    [filterParameter,
      ⟨"json", none, .flag, false, "Print the actions as JSON instead of one line each"⟩,
      verboseFlag, helpFlag]

/-- What a command line asks for. -/
inductive Request where
  | help (command? : Option Command)
  | version
  | render (script : String) (job : Job)
  | graph (script : String)
  | check (script : String) (json : Bool)
  deriving DecidableEq, Repr

/-- A request, and whether the stages are to be logged. -/
structure Invocation where
  verbose : Bool
  request : Request
  deriving DecidableEq, Repr

/-- Whether a flag is given. -/
def isGiven (given : List Given) (name : String) : Bool :=
  given.any (·.name = name)

/-- The value given for a parameter, or else a default. -/
def valueOr (given : List Given) (name default : String) : String :=
  match given.find? (·.name = name) with
  | some g => g.value
  | none => default

/-- The request of a command with its parameters. -/
def Command.request (command : Command) (given : List Given) : Request :=
  let script := valueOr given "filter" ""
  match command with
  | .render =>
    .render script
      { input := valueOr given "in" ""
        output := valueOr given "out" ""
        overwrite := isGiven given "force"
        encoder := valueOr given "ffmpeg" defaultEncoder
        silence := valueOr given "silence" defaultSilence }
  | .graph => .graph script
  | .check => .check script (isGiven given "json")

/-- Reads the words after a command. -/
def readCommand (verbose : Bool) (command : Command) (words : List String) :
    Except UsageError Invocation := do
  match ← readParameters command.parameters [] words with
  | .asked .help => return ⟨verbose, .help (some command)⟩
  | .asked .version => return ⟨verbose, .version⟩
  | .word _ text _ => throw (.unexpected text)
  | .separated _ (text :: _) => throw (.unexpected text)
  | .separated given [] => complete given
  | .finished given => complete given
where
  /-- The request once all words are read. -/
  complete (given : List Given) : Except UsageError Invocation :=
    let absent := command.parameters.filter fun p => p.required && !isGiven given p.name
    if absent.isEmpty then
      .ok ⟨verbose || isGiven given "verbose", command.request given⟩
    else .error (.missing (absent.map (·.name)))

/-- Reads the words after `help`: nothing, or a command. -/
def readTopic : List String → Except UsageError Request
  | [] => .ok (.help none)
  | ["help"] => .ok (.help none)
  | word :: rest =>
    match Command.ofName? word, rest with
    | some command, [] => .ok (.help (some command))
    | some _, extra :: _ => .error (.unknownCommand extra)
    | none, _ => .error (.unknownCommand word)

/-- Reads a command line. -/
def readInvocation (words : List String) : Except UsageError Invocation := do
  match ← readParameters programParameters [] words with
  | .asked .help => return ⟨false, .help none⟩
  | .asked .version => return ⟨false, .version⟩
  | .finished _ => throw .noCommand
  | .separated _ [] => throw .noCommand
  | .separated _ (text :: _) => throw (.unexpected text)
  | .word given text rest =>
    if text = "help" then return ⟨false, ← readTopic rest⟩
    else
      match Command.ofName? text with
      | some command => readCommand (isGiven given "verbose") command rest
      | none => throw (.unknownCommand text)

end EditList.CommandLine
