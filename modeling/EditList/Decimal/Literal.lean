import EditList.Decimal.Basic

/-!
# Number literals

Two readers of ASCII numerals.  Neither accepts blanks, digit separators or digits outside ASCII.

* `readWord` reads a 32-bit natural: an optional plus sign and digits.
* `readBinary64` reads a binary64 number: an optional sign and then `inf`, `infinity` or `nan` in any
  case, or digits with an optional point and an optional exponent.  The value is rounded once.
-/

namespace EditList.Decimal

/-- The value of a digit sequence. -/
def valueOf (digits : List Char) : Nat :=
  Nat.ofDigitChars 10 digits 0

/-- Splits off the longest run of digits at the front. -/
def spanDigits (cs : List Char) : List Char × List Char :=
  (cs.takeWhile Char.isDigit, cs.dropWhile Char.isDigit)

/-- Reads a numeral of digits alone; there must be at least one. -/
def readDigits (cs : List Char) : Option Nat :=
  if cs.isEmpty || !cs.all Char.isDigit then none else some (valueOf cs)

/-- Reads a natural below `2 ^ 32`: an optional plus sign, then digits. -/
def readWord (cs : List Char) : Option UInt32 :=
  let body := match cs with
    | '+' :: rest => rest
    | _ => cs
  match readDigits body with
  | some n => if n < twoPow 32 then some n.toUInt32 else none
  | none => none

/-- Splits an optional sign off the front: whether it is a minus, and the rest. -/
def splitSign (cs : List Char) : Bool × List Char :=
  match cs with
  | '+' :: rest => (false, rest)
  | '-' :: rest => (true, rest)
  | _ => (false, cs)

/-- Reads what follows the digits of a literal: nothing, or `e` and a signed numeral. -/
def readExponent (cs : List Char) : Option Int :=
  match cs with
  | [] => some 0
  | c :: rest =>
    if c = 'e' ∨ c = 'E' then
      let (negative, body) := splitSign rest
      (readDigits body).map fun n => if negative then -(n : Int) else n
    else none

/-- Reads an unsigned decimal literal: digits with an optional point, at least one digit in all, then
an optional exponent. -/
def readUnsigned (cs : List Char) : Option Decimal :=
  let (whole, rest) := spanDigits cs
  let (fraction, rest) := match rest with
    | '.' :: tail => spanDigits tail
    | _ => ([], rest)
  if whole.isEmpty && fraction.isEmpty then none
  else (readExponent rest).map fun e => ⟨valueOf (whole ++ fraction), e - fraction.length⟩

/-- Reads a binary64 literal. -/
def readBinary64 (cs : List Char) : Option Binary64 :=
  let (negative, body) := splitSign cs
  let word := String.ofList (body.map Char.toLower)
  if word = "nan" then some .nan
  else if word = "inf" ∨ word = "infinity" then some (.infinite negative)
  else (readUnsigned body).map (Binary64.ofDecimal negative)

end EditList.Decimal
