import EditList.Decimal.Fixed
import EditList.Decimal.Literal
import EditList.Json
import EditList.Text

/-!
# Times

A time is an offset from the start of the media, written `[[H:]M:]S`.  Its hours and minutes are kept
apart from the seconds, and `total` is the offset in seconds.
-/

namespace EditList

/-- An offset from the start of the media.  The parts need not be normalised: ninety minutes are as
good as an hour and thirty. -/
structure Time where
  hour : UInt32
  minute : UInt32
  second : Binary64
  deriving DecidableEq

namespace Time

/-- Why a text is not a time. -/
inductive Error where
  /-- More than three parts. -/
  | format (text : String)
  | hour (part : String)
  | minute (part : String)
  /-- The last part is no number, or a negative or infinite one. -/
  | second (part : String)
  deriving DecidableEq, Repr

/-- What the message of an error says. -/
def Error.message : Error → String
  | .format text => s!"bad time format '{text}'"
  | .hour part => s!"bad hour value '{part}'"
  | .minute part => s!"bad minute value '{part}'"
  | .second part => s!"bad second value '{part}'"

/-- The start of the media. -/
def zero : Time :=
  ⟨0, 0, Binary64.zero⟩

instance : Inhabited Time := ⟨zero⟩

/-- Reads hours or minutes. -/
def readWhole (error : String → Error) (part : List Char) : Except Error UInt32 :=
  match Decimal.readWord part with
  | some n => .ok n
  | none => .error (error (String.ofList part))

/-- Reads seconds: a finite number that is not below zero. -/
def readSeconds (part : List Char) : Except Error Binary64 :=
  match Decimal.readBinary64 part with
  | some x =>
    if x.isFinite && !x.lt Binary64.zero then .ok x else .error (.second (String.ofList part))
  | none => .error (.second (String.ofList part))

/-- The parts of a time between its colons; a part left empty stands for zero. -/
def parts (cs : List Char) : List (List Char) :=
  (cs.splitOn ':').map fun part => if part.isEmpty then ['0', '0'] else part

/-- Reads a time.  Blanks around it do not count, and a blank text is the start of the media. -/
def parse (text : String) : Except Error Time :=
  let cs := Text.trim text.toList
  if cs.isEmpty then .ok zero
  else
    match parts cs with
    | [s] => do
      return ⟨0, 0, ← readSeconds s⟩
    | [m, s] => do
      let minute ← readWhole .minute m
      return ⟨0, minute, ← readSeconds s⟩
    | [h, m, s] => do
      let hour ← readWhole .hour h
      let minute ← readWhole .minute m
      return ⟨hour, minute, ← readSeconds s⟩
    | _ => .error (.format (String.ofList cs))

/-- The offset in seconds. -/
def total (t : Time) : Binary64 :=
  Binary64.ofNat t.hour.toNat * Binary64.ofNat 3600 +
    Binary64.ofNat t.minute.toNat * Binary64.ofNat 60 + t.second

/-- The offset in seconds with two decimal places, as a filter graph has it. -/
def secondsText (t : Time) : String :=
  t.total.twoPlaces

/-- Whether the offset is nearer to zero than to a hundredth of a second. -/
def isNearZero (t : Time) : Bool :=
  (t.total * Binary64.ofNat 100).roundHalfAway.isZero

/-- The time as `H:MM:SS.ss`, or as `M:SS.ss` when it has no hours. -/
def text (t : Time) : String :=
  let seconds := t.second.twoPlacesWide 5
  if t.hour = 0 then s!"{t.minute}:{seconds}"
  else
    let minutes := Text.pad .right '0' 2 (toString t.minute)
    s!"{t.hour}:{minutes}:{seconds}"

/-- The time as a JSON object. -/
def json (t : Time) : Json :=
  .object [("hour", .ofNat t.hour.toNat), ("minute", .ofNat t.minute.toNat),
    ("second", .ofBinary64 t.second)]

end Time

end EditList
