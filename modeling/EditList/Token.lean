import EditList.Text

/-!
# Tokens

An edit list has one edit a line: a verb, a start, a stop and perhaps a reason, as in
`mute 1:20 - 1:22.5 (language)`.  `tokens` takes the fields off the lines, each with its line and
column.  A number sign starts a comment.

`Field.step` says what one character does in a field, and `tokensFrom` follows it along a line.
-/

namespace EditList

/-- The text of one field, with the line and the column at which it starts, both counted from one. -/
structure Token where
  text : String
  line : Nat
  column : Nat
  deriving DecidableEq, Repr

/-- The fields of a line, in their order. -/
inductive Field where
  /-- Ends at a blank. -/
  | verb
  /-- Ends at a hyphen. -/
  | start
  /-- Ends at an opening parenthesis. -/
  | stop
  /-- Ends at a closing parenthesis. -/
  | reason
  deriving DecidableEq, Repr

/-- What a character does to the field it stands in. -/
inductive Step where
  /-- It belongs to the field. -/
  | push
  /-- It is a blank before the field. -/
  | skip
  /-- It ends the field, and another one follows. -/
  | advance (next : Field)
  /-- It ends the last field, and with it the line. -/
  | finish
  /-- It starts a comment; a field that has not ended is dropped. -/
  | abandon
  deriving DecidableEq, Repr

/-- What `c` does in a field that is still `empty`, or not.  The character that ends a field starts
it instead when nothing stands before it; only a reason may be empty. -/
def Field.step (field : Field) (c : Char) (empty : Bool) : Step :=
  let stay := if Text.isBlank c && empty then Step.skip else Step.push
  if c = '#' then .abandon
  else
    match field with
    | .verb => if Text.isBlank c && !empty then .advance .start else stay
    | .start => if c = '-' && !empty then .advance .stop else stay
    | .stop => if c = '(' && !empty then .advance .reason else stay
    | .reason => if c = ')' then .finish else stay

/-- The part of a field that has been seen. -/
structure Pending where
  /-- Its characters, the last one first. -/
  taken : List Char
  /-- The column of the first of them. -/
  column : Nat

namespace Pending

/-- A field of which nothing has been seen. -/
def empty : Pending :=
  ⟨[], 0⟩

/-- The field with the character of a column added. -/
def push (p : Pending) (c : Char) (column : Nat) : Pending :=
  ⟨c :: p.taken, if p.taken.isEmpty then column else p.column⟩

/-- The token of a field.  A field without characters is at the column `here`, where it ended. -/
def token (p : Pending) (line here : Nat) : Token :=
  ⟨String.ofList (Text.trim p.taken.reverse), line, if p.taken.isEmpty then here else p.column⟩

end Pending

/-- The tokens of the rest of a line, which starts at a column inside a field. -/
def tokensFrom (line : Nat) (field : Field) (pending : Pending) (column : Nat) :
    List Char → List Token
  | [] => if pending.taken.isEmpty then [] else [pending.token line column]
  | c :: cs =>
    match field.step c pending.taken.isEmpty with
    | .push => tokensFrom line field (pending.push c column) (column + 1) cs
    | .skip => tokensFrom line field pending (column + 1) cs
    | .advance next => pending.token line column :: tokensFrom line next .empty (column + 1) cs
    | .finish => [pending.token line column]
    | .abandon => []

/-- The tokens of the line with a given number. -/
def lineTokens (line : Nat) (cs : List Char) : List Token :=
  tokensFrom line .verb .empty 1 cs

/-- The tokens of consecutive lines, the first of which has a given number. -/
def linesTokens (line : Nat) : List (List Char) → List Token
  | [] => []
  | cs :: rest => lineTokens line cs ++ linesTokens (line + 1) rest

/-- The tokens of a text. -/
def tokens (text : String) : List Token :=
  linesTokens 1 (Text.lines text.toList)

end EditList
