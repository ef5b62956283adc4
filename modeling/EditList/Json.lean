import EditList.Decimal.Shortest

/-!
# JSON text

JSON values with their fields in the order given, and two ways to write them: `compact` without
blanks, and `pretty` with one item a line, indented by two blanks a level.
-/

namespace EditList

/-- A JSON value.  A number is kept as its text, and the fields of an object keep their order. -/
inductive Json where
  | null
  | number (text : String)
  | string (text : String)
  | array (items : List Json)
  | object (fields : List (String × Json))

namespace Json

/-- A natural number. -/
def ofNat (n : Nat) : Json :=
  .number (toString n)

/-- A binary64 number with the fewest digits that identify it, a tie going to the even digit.
Numbers from `10 ^ (-5)` up to below `10 ^ 16` are written without an exponent and with at least
one decimal place; JSON has no word for the numbers that are not finite. -/
def ofBinary64 : Binary64 → Json
  | .finite s u _ =>
    let body :=
      if u = 0 then "0.0"
      else
        let d := Decimal.shortest .toEven u
        if -5 ≤ d.leadingExponent ∧ d.leadingExponent ≤ 15 then
          if 0 ≤ d.exponent then d.positional ++ ".0" else d.positional
        else d.scientific
    .number (if s then "-" ++ body else body)
  | _ => .null

/-- The written form of one character of a string: a quote, a backslash and the control characters
are escaped. -/
def escape (c : Char) : List Char :=
  match c with
  | '"' => ['\\', '"']
  | '\\' => ['\\', '\\']
  | '\n' => ['\\', 'n']
  | '\r' => ['\\', 'r']
  | '\t' => ['\\', 't']
  | '\x08' => ['\\', 'b']
  | '\x0c' => ['\\', 'f']
  | _ =>
    if c.toNat < 0x20 then
      ['\\', 'u', '0', '0', Nat.digitChar (c.toNat / 16), Nat.digitChar (c.toNat % 16)]
    else [c]

/-- A string between quotes. -/
def quote (s : String) : String :=
  String.ofList ('"' :: s.toList.flatMap escape ++ ['"'])

mutual

/-- The value on one line, without blanks. -/
def compact : Json → String
  | .null => "null"
  | .number text => text
  | .string text => quote text
  | .array items => "[" ++ ",".intercalate (compactItems items) ++ "]"
  | .object fields => "\x7b" ++ ",".intercalate (compactFields fields) ++ "\x7d"

def compactItems : List Json → List String
  | [] => []
  | item :: rest => item.compact :: compactItems rest

def compactFields : List (String × Json) → List String
  | [] => []
  | (name, value) :: rest => (quote name ++ ":" ++ value.compact) :: compactFields rest

end

/-- The line break before an item at a level. -/
def lineBreak (level : Nat) : String :=
  "\n" ++ String.ofList (List.replicate (2 * level) ' ')

/-- Items between brackets, each on a line of its own; no items leave the brackets together. -/
def block (level : Nat) (opening closing : String) (items : List String) : String :=
  if items.isEmpty then opening ++ closing
  else
    opening ++ ",".intercalate (items.map (lineBreak (level + 1) ++ ·)) ++ lineBreak level ++ closing

mutual

/-- The value over several lines, at a level of nesting. -/
def prettyAt (level : Nat) : Json → String
  | .null => "null"
  | .number text => text
  | .string text => quote text
  | .array items => block level "[" "]" (prettyItems (level + 1) items)
  | .object fields => block level "\x7b" "\x7d" (prettyFields (level + 1) fields)

def prettyItems (level : Nat) : List Json → List String
  | [] => []
  | item :: rest => item.prettyAt level :: prettyItems level rest

def prettyFields (level : Nat) : List (String × Json) → List String
  | [] => []
  | (name, value) :: rest =>
    (quote name ++ ": " ++ value.prettyAt level) :: prettyFields level rest

end

/-- The value over several lines. -/
def pretty (value : Json) : String :=
  value.prettyAt 0

end Json

end EditList
