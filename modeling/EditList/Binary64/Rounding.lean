/-!
# Rounding a quotient

`roundDiv` rounds a quotient of naturals to a nearest natural; the `Tie` says where an exact half
goes.  `nearestUnits` rounds a quotient to a natural of at most 53 significant bits, a half going
to the even neighbour.  Every rounding of the library, of a number to binary64 and of a binary64 to
decimal places, is one of these two.

* `nearestUnits_eq_mul_twoPow`: what `nearestUnits` returns has at most 53 significant bits.
-/

namespace EditList

/-- The power `2 ^ n`. -/
def twoPow (n : Nat) : Nat :=
  Nat.pow 2 n

/-- The power `10 ^ n`. -/
def tenPow (n : Nat) : Nat :=
  Nat.pow 10 n

theorem twoPow_pos (n : Nat) : 0 < twoPow n :=
  Nat.two_pow_pos n

theorem twoPow_succ (n : Nat) : twoPow (n + 1) = 2 * twoPow n :=
  Nat.pow_succ'

/-- Where a value halfway between two candidates goes. -/
inductive Tie where
  /-- To the even candidate. -/
  | toEven
  /-- To the larger candidate. -/
  | up
  deriving DecidableEq, Repr

/-- The natural nearest to `num / den`, an exact half going as `tie` says. -/
def roundDiv (tie : Tie) (num den : Nat) : Nat :=
  let q := num / den
  let r := num % den
  if 2 * r < den then q
  else if den < 2 * r then q + 1
  else match tie with
    | .toEven => q + q % 2
    | .up => q + 1

theorem roundDiv_le_succ (tie : Tie) (num den : Nat) : roundDiv tie num den ≤ num / den + 1 := by
  simp only [roundDiv]
  split
  · omega
  · split
    · omega
    · cases tie <;> simp only <;> omega

/-- The number of low bits that do not fit when `n` is held in 53 bits. -/
def surplusBits (n : Nat) : Nat :=
  n.log2 - 52

/-- The multiple of `2 ^ surplusBits (num / den)` nearest to `num / den`, ties to even. -/
def nearestUnits (num den : Nat) : Nat :=
  let s := surplusBits (num / den)
  roundDiv .toEven num (den * twoPow s) * twoPow s

theorem div_lt_twoPow_of_surplusBits (num den : Nat) :
    num / (den * twoPow (surplusBits (num / den))) < twoPow 53 := by
  simp only [twoPow, Nat.pow_eq]
  rw [← Nat.div_div_eq_div_mul, Nat.div_lt_iff_lt_mul (Nat.two_pow_pos _), ← Nat.pow_add]
  refine Nat.lt_of_lt_of_le Nat.lt_log2_self (Nat.pow_le_pow_right (by decide) ?_)
  simp only [surplusBits]
  omega

theorem nearestUnits_eq_mul_twoPow (num den : Nat) :
    ∃ m e, m < twoPow 53 ∧ nearestUnits num den = m * twoPow e := by
  have hq := div_lt_twoPow_of_surplusBits num den
  have hr := roundDiv_le_succ .toEven num (den * twoPow (surplusBits (num / den)))
  rcases Nat.lt_or_ge (roundDiv .toEven num (den * twoPow (surplusBits (num / den)))) (twoPow 53)
    with h | h
  · exact ⟨_, _, h, rfl⟩
  · -- rounding carried into a 54th bit, and the result is a power of two
    refine ⟨twoPow 52, surplusBits (num / den) + 1, by decide, ?_⟩
    have h53 : roundDiv .toEven num (den * twoPow (surplusBits (num / den))) = twoPow 53 := by omega
    rw [nearestUnits, h53, twoPow_succ 52, twoPow_succ (surplusBits _), Nat.mul_comm 2, Nat.mul_assoc]

end EditList
