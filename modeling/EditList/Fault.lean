import EditList.Reason
import EditList.SystemError
import EditList.Time

/-!
# Faults

Everything that can be wrong with an edit list, with its compilation or with a run of the encoder.
`Fault.message` is the one place where the wording stands.
-/

namespace EditList

/-- Which end of an edit a time gives. -/
inductive Bound where
  | start
  | stop
  deriving DecidableEq, Repr

/-- The word for a bound in a message. -/
def Bound.name : Bound → String
  | .start => "start"
  | .stop => "end"

/-- A place in an edit list, both numbers counted from one. -/
structure Position where
  line : Nat
  column : Nat
  deriving DecidableEq, Repr

/-- Why the encoder did not write the edited media. -/
inductive EncoderFault where
  /-- The output would replace the input. -/
  | sameFile (input : String)
  | blankSilence
  | missingInput (input : String)
  | outputExists (output : String)
  /-- The program is missing or does not answer when asked for its version. -/
  | notRunnable (program : String)
  | notStarted (cause : SystemError)
  | failed (status : UInt8)
  /-- A failure in the words of the encoder. -/
  | reported (detail : String)
  deriving DecidableEq

/-- What the message of an encoder fault says. -/
def EncoderFault.message : EncoderFault → String
  | .sameFile input => s!"input and output are the same file '{input}'"
  | .blankSilence => "silence source must not be empty"
  | .missingInput input => s!"input file '{input}' does not exist"
  | .outputExists output =>
    s!"output file '{output}' already exists (pass --force to overwrite)"
  | .notRunnable program =>
    s!"'{program}' was not found or does not run (is ffmpeg installed and on PATH?)"
  | .notStarted cause => s!"failed to spawn ffmpeg: {cause.message}"
  | .failed status => s!"ffmpeg exited with status exit status: {status}"
  | .reported detail => detail

/-- What is wrong. -/
inductive Fault where
  /-- Tokens that cannot be grouped into lines. -/
  | grouping (line : Nat) (detail : String)
  /-- The first word of a line is no verb. -/
  | unknownVerb (position : Position) (word : String)
  | badTime (position : Position) (bound : Bound) (cause : Time.Error)
  | badReason (position : Position) (cause : Reason.Error)
  /-- A line has a token beyond the `count` that an edit takes. -/
  | surplusToken (position : Position) (count : Nat)
  /-- An edit stops before it starts. -/
  | reversed (line : Nat) (start stop : Time)
  /-- An edit lasts less than the threshold. -/
  | tooShort (line : Nat) (start stop : Time) (threshold : Binary64)
  /-- An edit starts before the previous one stops. -/
  | outOfOrder (previousLine line : Nat)
  /-- The gap between an edit and the previous one is below the threshold. -/
  | tooClose (previousLine line : Nat)
  /-- There is nothing to compile. -/
  | noActions
  /-- A verb that has no compilation. -/
  | unsupportedVerb (index : Nat) (word : String)
  | encoder (cause : EncoderFault)
  /-- The directory of the output cannot be made. -/
  | noDirectory (path : String) (cause : SystemError)
  /-- A failure outside the library, with the chain of its causes. -/
  | external (description : String) (causes : List String)
  deriving DecidableEq

namespace Fault

/-- What the message of a fault says. -/
def message : Fault → String
  | .grouping line detail => s!"lex error: line {line}: {detail}"
  | .unknownVerb p word => s!"unrecognized verb: line {p.line}:{p.column}: '{word}'"
  | .badTime p bound cause =>
    s!"invalid {bound.name} time: line {p.line}:{p.column}: {cause.message}"
  | .badReason p cause => s!"invalid annotation: line {p.line}:{p.column}: {cause.message}"
  | .surplusToken p count =>
    s!"unexpected token count: line {p.line}:{p.column}: already have {count} tokens"
  | .reversed line start stop =>
    s!"out of order: line {line}: end time {stop.text} ({stop.total.plain}s) comes before " ++
      s!"start time {start.text} ({start.total.plain}s)"
  | .tooShort line start stop threshold =>
    s!"segment too short: line {line}: start time {start.total.plain}s and end time " ++
      s!"{stop.total.plain}s are within {threshold.plain}s of each other"
  | .outOfOrder previousLine line =>
    s!"out of order: lines {previousLine}-{line}: segments are out of order"
  | .tooClose previousLine line =>
    s!"overlap: lines {previousLine}-{line}: segments overlap or are too close"
  | .noActions => "empty action list: no actions to perform"
  | .unsupportedVerb index word => s!"unsupported verb: action {index}: '{word}'"
  | .encoder cause => s!"encode error: {cause.message}"
  | .noDirectory path _ => s!"failed to create output directory '{path}'"
  | .external description _ => description

/-- The messages of what caused a fault, the nearest cause first. -/
def causes : Fault → List String
  | .badTime _ _ cause => [cause.message]
  | .badReason _ cause => [cause.message]
  | .noDirectory _ cause => [cause.message]
  | .external _ causes => causes
  | _ => []

/-- The line that a fault points at; of two edits it is the later one's. -/
def line? : Fault → Option Nat
  | .grouping line _ => some line
  | .unknownVerb p _ => some p.line
  | .badTime p _ _ => some p.line
  | .badReason p _ => some p.line
  | .surplusToken p _ => some p.line
  | .reversed line _ _ => some line
  | .tooShort line _ _ _ => some line
  | .outOfOrder _ line => some line
  | .tooClose _ line => some line
  | _ => none

/-- The column that a fault points at, if it points at a token. -/
def column? : Fault → Option Nat
  | .unknownVerb p _ => some p.column
  | .badTime p _ _ => some p.column
  | .badReason p _ => some p.column
  | .surplusToken p _ => some p.column
  | _ => none

end Fault

end EditList
