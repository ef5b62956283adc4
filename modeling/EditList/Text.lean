/-!
# Text

What the other modules need of texts, as lists of characters: the blank characters and trimming them,
lines, and filling a text up to the width of a column.

A line feed ends a line, and a carriage return right before it belongs to the ending.  What stands
after the last line feed is a line too unless it is empty; there a carriage return is text.
-/

namespace EditList.Text

/-! ### Blank characters -/

/-- Whether a character is white space: the 25 characters of the Unicode property White_Space. -/
def isBlank (c : Char) : Bool :=
  let n := c.toNat
  (0x09 ≤ n && n ≤ 0x0d) || n == 0x20 || n == 0x85 || n == 0xa0 || n == 0x1680 ||
    (0x2000 ≤ n && n ≤ 0x200a) || n == 0x2028 || n == 0x2029 || n == 0x202f || n == 0x205f ||
    n == 0x3000

/-- The text without the blanks at its end. -/
def trimEnd (cs : List Char) : List Char :=
  (cs.reverse.dropWhile isBlank).reverse

/-- The text without the blanks at its two ends. -/
def trim (cs : List Char) : List Char :=
  trimEnd (cs.dropWhile isBlank)

/-! ### Lines -/

/-- Drops one carriage return at the end. -/
def dropReturn (line : List Char) : List Char :=
  if line.getLast? = some '\r' then line.dropLast else line

/-- The lines among pieces that a line feed separates: all but the last piece were ended by one. -/
def endedLines : List (List Char) → List (List Char)
  | [] => []
  | [last] => if last.isEmpty then [] else [last]
  | line :: rest => dropReturn line :: endedLines rest

/-- The lines of a text. -/
def lines (cs : List Char) : List (List Char) :=
  endedLines (cs.splitOn '\n')

/-! ### Columns -/

/-- Where text stands in a column that is wider than it. -/
inductive Alignment where
  | left
  | right
  | center
  deriving DecidableEq, Repr

/-- Fills a text up to `width` characters.  When a centred text leaves an odd number of places, the
extra one is on the right; a text that is too long stays as it is. -/
def pad (alignment : Alignment) (fill : Char) (width : Nat) (s : String) : String :=
  let missing := width - s.length
  let before := match alignment with
    | .left => 0
    | .right => missing
    | .center => missing / 2
  String.ofList
    (List.replicate before fill ++ s.toList ++ List.replicate (missing - before) fill)

end EditList.Text
