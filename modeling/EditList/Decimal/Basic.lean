import EditList.Binary64.Basic

/-!
# Decimal numbers and their written forms

A `Decimal` is a natural number of steps of a power of ten.  `positional` writes it with a point and
no exponent, `scientific` with one digit before the point and an exponent.  `Binary64.ofDecimal` is
the binary64 number nearest to a decimal.
-/

namespace EditList

/-- The number `digits * 10 ^ exponent`. -/
structure Decimal where
  digits : Nat
  exponent : Int
  deriving DecidableEq, Repr

namespace Decimal

/-- The digits without a point. -/
def digitText (d : Decimal) : List Char :=
  Nat.toDigits 10 d.digits

/-- The exponent of the leading digit. -/
def leadingExponent (d : Decimal) : Int :=
  d.exponent + d.digitText.length - 1

/-- The number without an exponent: zeros fill the places that no digit takes, and a whole number
has no point. -/
def positional (d : Decimal) : String :=
  let cs := d.digitText
  -- how many digits stand before the point
  let whole := d.exponent + cs.length
  String.ofList <|
    if 0 ≤ d.exponent then cs ++ List.replicate d.exponent.toNat '0'
    else if 0 < whole then cs.take whole.toNat ++ '.' :: cs.drop whole.toNat
    else '0' :: '.' :: List.replicate (-whole).toNat '0' ++ cs

/-- One digit, a point if more digits follow, and the exponent with its sign. -/
def scientific (d : Decimal) : String :=
  let mantissa := match d.digitText with
    | c :: c' :: cs => c :: '.' :: c' :: cs
    | cs => cs
  let x := d.leadingExponent
  let mark := if x < 0 then "e-" else "e+"
  String.ofList mantissa ++ mark ++ toString x.natAbs

end Decimal

/-- The binary64 number nearest to a signed decimal.  An exponent above 400 is past the largest
finite number and one below `-400` by more than the bits of the digits is past the smallest, so
neither is expanded into a power of ten. -/
def Binary64.ofDecimal (negative : Bool) (d : Decimal) : Binary64 :=
  if d.digits = 0 then signedZero negative
  else if 400 < d.exponent then .infinite negative
  else if d.exponent < -(400 + d.digits.log2 : Int) then signedZero negative
  else
    ofQuotient negative (d.digits * tenPow d.exponent.toNat * unitsPerOne)
      (tenPow (-d.exponent).toNat)

end EditList
