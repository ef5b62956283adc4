import EditList.Decimal.Basic

/-!
# Two decimal places

`hundredths` rounds a magnitude to a whole number of hundredths, a half going to the even neighbour,
and `twoPlaces` writes it with a point and two digits.  The exact binary value is rounded, not its
shortest decimal.  `twoPlacesWide` fills with zeros between the sign and the digits.
-/

namespace EditList.Binary64

/-- The whole number of hundredths nearest to a magnitude in units, ties to even. -/
def hundredths (units : Nat) : Nat :=
  roundDiv .toEven (units * 100) unitsPerOne

/-- A number of hundredths with a point before its last two digits. -/
def hundredthsText (h : Nat) : List Char :=
  Nat.toDigits 10 (h / 100) ++ ['.', Nat.digitChar (h % 100 / 10), Nat.digitChar (h % 10)]

/-- Whether a minus sign is written: for every number with a negative sign, zero included. -/
def isNegative : Binary64 → Bool
  | .nan => false
  | .infinite s => s
  | .finite s _ _ => s

/-- The magnitude with two decimal places, or the word for a number that has none. -/
def twoPlacesBody : Binary64 → List Char
  | .nan => "NaN".toList
  | .infinite _ => "inf".toList
  | .finite _ u _ => hundredthsText (hundredths u)

/-- The number with at least `width` characters, zeros standing after the sign. -/
def twoPlacesWide (width : Nat) (x : Binary64) : String :=
  let sign := if x.isNegative then ['-'] else []
  String.ofList (sign ++ x.twoPlacesBody.leftpad (width - sign.length) '0')

/-- The number with two decimal places. -/
def twoPlaces (x : Binary64) : String :=
  x.twoPlacesWide 0

end EditList.Binary64
