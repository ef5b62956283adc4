import EditList.Host
import EditList.Script

/-!
# Encoder jobs

A job edits one media file into another.  `Job.check` refuses jobs that could only fail late or do
harm, `Job.arguments` is what the encoder is told, and `Job.run` runs it.
-/

namespace EditList

/-- The silence that mutes take their sound from, unless a job names another one. -/
def defaultSilence : String := "anullsrc"

/-- The program that encodes, unless a job names another one. -/
def defaultEncoder : String := "ffmpeg"

/-- One run of the encoder. -/
structure Job where
  input : String
  output : String
  /-- Whether an output that is there already is replaced. -/
  overwrite : Bool
  encoder : String
  /-- A description of the silence for the encoder. -/
  silence : String
  deriving DecidableEq, Repr

namespace Job

/-- The job that edits `input` into `output` and replaces nothing. -/
def new (input output : String) : Job :=
  ⟨input, output, false, defaultEncoder, defaultSilence⟩

/-- The arguments of the encoder.  The media is its first input and the silence its second. -/
def arguments (job : Job) (expression : String) : List String :=
  [if job.overwrite then "-y" else "-n", "-i", job.input, "-f", "lavfi", "-i", job.silence,
    "-filter_complex", expression, "-map", s!"[{pictureOutput}]", "-map", s!"[{soundOutput}]",
    job.output]

variable {m : Type → Type} [Monad m] [Host m]

/-- Refuses a job whose two paths are spelled alike, whose silence is blank, whose input is missing or
whose output is there and not to be replaced. -/
def check (job : Job) : ExceptT Fault m Unit := do
  if (Path.ofString job.input).components = (Path.ofString job.output).components then
    throw (.encoder (.sameFile job.input))
  if (Text.trim job.silence.toList).isEmpty then
    throw (.encoder .blankSilence)
  if !(← Host.pathExists (m := m) job.input) then
    throw (.encoder (.missingInput job.input))
  if !job.overwrite then
    if ← Host.pathExists (m := m) job.output then
      throw (.encoder (.outputExists job.output))

/-- Makes the directory that a path is in, if it is missing. -/
def ensureParent (path : String) : ExceptT Fault m Unit := do
  match (Path.ofString path).parent? with
  | none => return
  | some parent =>
    if parent.text ≠ "" then
      match ← makeDirectories (m := m) (parent :: parent.ancestors) with
      | .ok _ => return
      | .error e => throw (.noDirectory parent.text e)

/-- Whether a program runs: asked for its version it exits with success. -/
def canRun (program : String) : m Bool := do
  match ← Host.launch program ["-version"] with
  | .ok status => return status = 0
  | .error _ => return false

/-- Runs the encoder with a filter graph. -/
def run (job : Job) (graph : Graph) : ExceptT Fault m Unit := do
  job.check
  ensureParent job.output
  if !(← canRun (m := m) job.encoder) then
    throw (.encoder (.notRunnable job.encoder))
  match ← Host.launch (m := m) job.encoder (job.arguments graph.text) with
  | .error e => throw (.encoder (.notStarted e))
  | .ok status => if status ≠ 0 then throw (.encoder (.failed status))

/-- Compiles an edit list and runs the encoder with it. -/
def render (job : Job) (text : String) : ExceptT Fault m Unit := do
  let graph ← liftExcept (compile text)
  job.run graph
where
  /-- The result of a computation that asks nothing of the host. -/
  liftExcept {α : Type} (result : Except Fault α) : ExceptT Fault m α :=
    ExceptT.mk (pure result)

end Job

end EditList
