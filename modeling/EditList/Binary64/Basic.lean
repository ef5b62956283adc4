import EditList.Binary64.Rounding

/-!
# Binary64 numbers

A finite binary64 number is a sign and a magnitude.  The magnitude is counted in units of the
smallest positive number, `2 ^ (-1074)`, so every magnitude is an exact natural and each operation is
the exact result rounded once (`ofQuotient`).  Zero keeps its sign.

The proof field of `finite` says that the magnitude is one that the format can hold, so a
`Binary64` is exactly one of the format's numbers.
-/

namespace EditList

/-- One unit is `2 ^ (-unitBits)`. -/
def unitBits : Nat :=
  1074

/-- Finite magnitudes, in units, have at most `magnitudeBits` bits. -/
def magnitudeBits : Nat :=
  2098

/-- The number of units in one. -/
def unitsPerOne : Nat :=
  twoPow unitBits

/-- The first magnitude, in units, that is too large for a finite number. -/
def overflowUnits : Nat :=
  twoPow magnitudeBits

theorem unitsPerOne_pos : 0 < unitsPerOne :=
  twoPow_pos unitBits

theorem overflowUnits_pos : 0 < overflowUnits :=
  twoPow_pos magnitudeBits

/-- A magnitude, in units, that binary64 holds: below the overflow and of at most 53 significant
bits. -/
def Representable (units : Nat) : Prop :=
  units < overflowUnits ∧ ∃ m e, m < twoPow 53 ∧ units = m * twoPow e

/-- The numbers of the binary64 format. -/
inductive Binary64 where
  | nan
  | infinite (negative : Bool)
  | finite (negative : Bool) (units : Nat) (representable : Representable units)
  deriving DecidableEq

namespace Binary64

/-- The number nearest to `num / den` units, ties to even; beyond the largest finite number it is
infinite. -/
def ofQuotient (negative : Bool) (num den : Nat) : Binary64 :=
  if h : nearestUnits num den < overflowUnits then
    .finite negative (nearestUnits num den) ⟨h, nearestUnits_eq_mul_twoPow num den⟩
  else
    .infinite negative

theorem representable_zero : Representable 0 :=
  ⟨overflowUnits_pos, 0, 0, by decide, rfl⟩

/-- The zero of the given sign. -/
def signedZero (negative : Bool) : Binary64 :=
  .finite negative 0 representable_zero

/-- The positive zero. -/
def zero : Binary64 :=
  signedZero false

instance : Inhabited Binary64 := ⟨zero⟩

/-- The binary64 number nearest to a natural. -/
def ofNat (n : Nat) : Binary64 :=
  ofQuotient false (n * unitsPerOne) 1

/-- Whether the number is neither infinite nor NaN. -/
def isFinite : Binary64 → Bool
  | .finite .. => true
  | _ => false

/-- Whether the number is a zero of either sign. -/
def isZero : Binary64 → Bool
  | .finite _ u _ => u == 0
  | _ => false

/-- The number with the other sign. -/
def neg : Binary64 → Binary64
  | .nan => .nan
  | .infinite s => .infinite !s
  | .finite s u h => .finite (!s) u h

/-- The exact sum, rounded.  Two equal magnitudes of opposite sign give the positive zero. -/
def add : Binary64 → Binary64 → Binary64
  | .nan, _ => .nan
  | _, .nan => .nan
  | .infinite s, .infinite t => if s = t then .infinite s else .nan
  | .infinite s, .finite .. => .infinite s
  | .finite .., .infinite t => .infinite t
  | .finite s u _, .finite t v _ =>
    if s = t then ofQuotient s (u + v) 1
    else if u = v then zero
    else if v < u then ofQuotient s (u - v) 1
    else ofQuotient t (v - u) 1

/-- The exact difference, rounded. -/
def sub (x y : Binary64) : Binary64 :=
  add x (neg y)

/-- The exact product, rounded. -/
def mul : Binary64 → Binary64 → Binary64
  | .nan, _ => .nan
  | _, .nan => .nan
  | .infinite s, .infinite t => .infinite (s ^^ t)
  | .infinite s, .finite t v _ => if v = 0 then .nan else .infinite (s ^^ t)
  | .finite s u _, .infinite t => if u = 0 then .nan else .infinite (s ^^ t)
  | .finite s u _, .finite t v _ => ofQuotient (s ^^ t) (u * v) unitsPerOne

instance : Neg Binary64 := ⟨neg⟩
instance : Add Binary64 := ⟨add⟩
instance : Sub Binary64 := ⟨sub⟩
instance : Mul Binary64 := ⟨mul⟩

/-- The signed number of units, which orders the numbers; an infinity lies beyond every finite
number, and NaN has no place. -/
def rank? : Binary64 → Option Int
  | .nan => none
  | .infinite s => some (if s then -(overflowUnits : Int) else overflowUnits)
  | .finite s u _ => some (if s then -(u : Int) else u)

/-- Whether `x` is less than `y`.  Nothing is less than NaN, nor NaN less than anything, and the two
zeros are equal. -/
def lt (x y : Binary64) : Bool :=
  match x.rank?, y.rank? with
  | some a, some b => a < b
  | _, _ => false

/-- The whole number nearest to `x`, a half going away from zero. -/
def roundHalfAway : Binary64 → Binary64
  | .finite s u _ => ofQuotient s (roundDiv .up u unitsPerOne * unitsPerOne) 1
  | x => x

/-- The 64 bits of the interchange encoding, as a number: sign, eleven exponent bits, 52 fraction
bits.  Every NaN is encoded as the one with only the highest fraction bit set. -/
def toBits : Binary64 → Nat
  | .nan => 0x7ff8000000000000
  | .infinite s => s.toNat * twoPow 63 + 0x7ff0000000000000
  | .finite s u _ =>
    let e := surplusBits u
    -- the leading bit of a normal magnitude carries one into the exponent field
    s.toNat * twoPow 63 + e * twoPow 52 + u / twoPow e

end Binary64

end EditList
