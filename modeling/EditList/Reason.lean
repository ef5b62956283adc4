import EditList.Json
import EditList.Text

/-!
# Reasons

The reason given for an edit: a category, and perhaps a specifier after a colon.  It is carried for
the reader of the list and has no effect on the edit.
-/

namespace EditList

/-- The reason for an edit. -/
structure Reason where
  category : String
  specifier : Option String
  deriving DecidableEq, Repr

namespace Reason

/-- A text with more than one colon. -/
structure Error where
  text : String
  deriving DecidableEq, Repr

/-- What the message of an error says. -/
def Error.message (e : Error) : String :=
  s!"bad annotation format '{e.text}' (expected 'category' or 'category:specifier')"

/-- What an edit without a reason has. -/
def none : Reason :=
  ⟨"", Option.none⟩

instance : Inhabited Reason := ⟨none⟩

/-- Reads `category` or `category:specifier`.  Blanks around either part do not count, and a blank
text gives no reason. -/
def parse (text : String) : Except Error Reason :=
  let cs := Text.trim text.toList
  if cs.isEmpty then .ok none
  else
    match cs.splitOn ':' with
    | [category] => .ok ⟨String.ofList (Text.trim category), Option.none⟩
    | [category, specifier] =>
      .ok ⟨String.ofList (Text.trim category), some (String.ofList (Text.trim specifier))⟩
    | _ => .error ⟨String.ofList cs⟩

/-- Whether there is neither a category nor a specifier. -/
def isEmpty (r : Reason) : Bool :=
  r.category.isEmpty && r.specifier.isNone

/-- The reason as it is written in an edit list. -/
def text (r : Reason) : String :=
  match r.specifier with
  | some specifier => r.category ++ ":" ++ specifier
  | Option.none => r.category

/-- The reason as a JSON object; a specifier that was not given is left out. -/
def json (r : Reason) : Json :=
  .object (("category", .string r.category) ::
    match r.specifier with
    | some specifier => [("specifier", .string specifier)]
    | Option.none => [])

end Reason

end EditList
