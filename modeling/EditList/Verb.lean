import EditList.Json

/-!
# Verbs

What an edit does to its stretch of the media.
-/

namespace EditList

/-- What an edit does. -/
inductive Verb where
  /-- Drops picture and sound. -/
  | cut
  /-- Keeps the picture and silences the sound. -/
  | mute
  deriving DecidableEq, Repr

namespace Verb

/-- The word for a verb. -/
def name : Verb → String
  | .cut => "cut"
  | .mute => "mute"

/-- The verb that a word names; the case of ASCII letters does not count. -/
def ofName? (word : String) : Option Verb :=
  let lower := String.ofList (word.toList.map Char.toLower)
  [cut, mute].find? fun verb => verb.name = lower

/-- The verb as a JSON string. -/
def json (v : Verb) : Json :=
  .string v.name

end Verb

end EditList
