import EditList.Decimal.Basic

/-!
# The shortest decimal that identifies a binary64 number

The reals that round to a given positive number form an interval around it; `Interval.ofUnits` is
that interval, in quarter units so that both ends are natural.  `shortest` is the decimal of the
fewest digits in the interval, of two such the nearer one, and on an exact tie the one the `Tie`
names.  It looks at ever finer powers of ten and tests the two neighbours of the number on each.
-/

namespace EditList

/-- The reals that round to a binary64 number, in quarter units. -/
structure Interval where
  lower : Nat
  upper : Nat
  /-- Whether the ends themselves round to the number. -/
  closed : Bool
  deriving DecidableEq, Repr

namespace Interval

/-- The interval of a positive magnitude.  It reaches halfway to either neighbour; the neighbour below
a power of two is half as far away as the one above. -/
def ofUnits (units : Nat) : Interval :=
  let e := surplusBits units
  let significand := units / twoPow e
  let narrow := significand = twoPow 52 ∧ 0 < e
  { lower := 4 * units - (if narrow then twoPow e else 2 * twoPow e)
    upper := 4 * units + 2 * twoPow e
    closed := significand % 2 = 0 }

/-- Whether `num / den` quarter units lie in the interval. -/
def contains (i : Interval) (num den : Nat) : Bool :=
  if i.closed then i.lower * den ≤ num ∧ num ≤ i.upper * den
  else i.lower * den < num ∧ num < i.upper * den

end Interval

namespace Decimal

/-- The decimal on the grid of `10 ^ exponent` that identifies the magnitude and is nearest to it, if
there is one. -/
def onGrid? (tie : Tie) (units : Nat) (exponent : Int) : Option Decimal :=
  -- one step of the grid is `step / scale` quarter units
  let step := 4 * unitsPerOne * tenPow exponent.toNat
  let scale := tenPow (-exponent).toNat
  let below := 4 * units * scale / step
  let interval := Interval.ofUnits units
  match interval.contains (below * step) scale, interval.contains ((below + 1) * step) scale with
  | false, false => none
  | true, false => some ⟨below, exponent⟩
  | false, true => some ⟨below + 1, exponent⟩
  | true, true => some ⟨roundDiv tie (4 * units * scale) step, exponent⟩

/-- The shortest decimal that identifies a positive magnitude.  The search starts at a power of ten
above the magnitude; seventeen digits always suffice, and the exact value stands behind them. -/
def shortest (tie : Tie) (units : Nat) : Decimal :=
  let top : Int := ((units.log2 + 1) * 30103 / 100000 : Nat) - 322
  let grids := (List.range 20).map fun (i : Nat) => top - i
  (grids.findSome? (onGrid? tie units)).getD ⟨units * Nat.pow 5 unitBits, -unitBits⟩

end Decimal

/-- The number in full with the fewest digits that identify it, as messages show it: never an
exponent, no point after a whole number, and a tie between two shortest decimals goes up. -/
def Binary64.plain : Binary64 → String
  | .nan => "NaN"
  | .infinite s => if s then "-inf" else "inf"
  | .finite s u _ =>
    let body := if u = 0 then "0" else (Decimal.shortest .up u).positional
    if s then "-" ++ body else body

end EditList
