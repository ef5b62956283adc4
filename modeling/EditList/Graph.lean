import EditList.Time

/-!
# Filter graphs

A filter graph is a chain of statements for the encoder.  A trim takes a span of the media and a join
plays two earlier results one after the other; each writes a pair of labels, one for the picture and
one for the sound.  `Graph.text` is the expression that the encoder reads.
-/

namespace EditList

/-- The label of the picture of the media. -/
def pictureInput : String := "0:v"

/-- The label of the sound of the media. -/
def soundInput : String := "0:a"

/-- The label of the silence. -/
def silenceInput : String := "1:a"

/-- The label of the edited picture. -/
def pictureOutput : String := "outv"

/-- The label of the edited sound. -/
def soundOutput : String := "outa"

/-- Where the sound of a slice comes from. -/
inductive AudioSource where
  | media
  | silence
  deriving DecidableEq, Repr

/-- The label that a source is read from. -/
def AudioSource.input : AudioSource → String
  | .media => soundInput
  | .silence => silenceInput

/-- A stretch of the media. -/
inductive Span where
  /-- From the start of the media. -/
  | leading (stop : Time)
  | between (start stop : Time)
  /-- To the end of the media. -/
  | trailing (start : Time)
  deriving DecidableEq

/-- The arguments that select a span.  A leading span is given by its duration. -/
def Span.text : Span → String
  | .leading stop => s!"duration={stop.secondsText}"
  | .between start stop => s!"start={start.secondsText}:end={stop.secondsText}"
  | .trailing start => s!"start={start.secondsText}"

/-- The labels that a statement writes. -/
inductive Label where
  /-- A label of its own for each result that is joined to others.  The numbers have no bound.  A
  32-bit counter gives the same ones for fewer than `2 ^ 30` actions. -/
  | numbered (n : Nat)
  /-- The labels of the edited media. -/
  | output
  deriving DecidableEq, Repr

/-- The picture label of a number. -/
def pictureLabel (n : Nat) : String :=
  s!"video{n}"

/-- The sound label of a number. -/
def soundLabel (n : Nat) : String :=
  s!"audio{n}"

/-- The label of the picture. -/
def Label.picture : Label → String
  | .numbered n => pictureLabel n
  | .output => pictureOutput

/-- The label of the sound. -/
def Label.sound : Label → String
  | .numbered n => soundLabel n
  | .output => soundOutput

/-- One pair of statements of a filter graph. -/
inductive Node where
  /-- Takes a span of the media. -/
  | trim (span : Span) (audio : AudioSource) (out : Label)
  /-- Plays two results one after the other.  They are given by the numbers of their labels, which are
  unbounded as in `Label.numbered`. -/
  | join (left right : Nat) (out : Label)
  deriving DecidableEq

namespace Node

/-- The statement for the picture. -/
def pictureText : Node → String
  | .trim span _ out =>
    s!"[{pictureInput}]trim={span.text},setpts=PTS-STARTPTS[{out.picture}]"
  | .join left right out =>
    s!"[{pictureLabel left}][{pictureLabel right}]concat[{out.picture}]"

/-- The statement for the sound. -/
def soundText : Node → String
  | .trim span audio out =>
    s!"[{audio.input}]atrim={span.text},asetpts=PTS-STARTPTS[{out.sound}]"
  | .join left right out =>
    s!"[{soundLabel left}][{soundLabel right}]concat=v=0:a=1[{out.sound}]"

/-- Both statements. -/
def text (n : Node) : String :=
  n.pictureText ++ ";" ++ n.soundText

end Node

/-- A span together with the source of its sound. -/
structure Slice where
  span : Span
  audio : AudioSource
  deriving DecidableEq

/-- The slice that a node takes, if it takes one. -/
def Node.slice? : Node → Option Slice
  | .trim span audio _ => some ⟨span, audio⟩
  | .join .. => none

/-- A filter graph: its nodes, in the order in which they are written. -/
structure Graph where
  nodes : List Node
  deriving DecidableEq

namespace Graph

/-- The slices that the trims of a graph take, in their order. -/
def slices (g : Graph) : List Slice :=
  g.nodes.filterMap Node.slice?

/-- The number of trims. -/
def sliceCount (g : Graph) : Nat :=
  g.slices.length

/-- The expression of a graph. -/
def text (g : Graph) : String :=
  ";".intercalate (g.nodes.map Node.text)

end Graph

end EditList
