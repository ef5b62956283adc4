import EditList.Decimal.Basic
import EditList.Proofs.Binary64.Exact
import Mathlib.Tactic.NormNum

/-!
# Decimals are rounded once

`Decimal.value` is the exact number that a decimal stands for.  Reading it leaves the power of ten aside
when the exponent is far out of range, but what is read is always the exact value rounded once
(`ofDecimal_eq_ofQuotient`): those decimals are past the overflow or less than half of the smallest
number.
-/

namespace EditList

theorem tenPow_pos (n : ℕ) : 0 < tenPow n :=
  Nat.pow_pos (by decide)

/-- Each decimal digit is worth at least three bits. -/
theorem twoPow_three_mul_le_tenPow (n : ℕ) : twoPow (3 * n) ≤ tenPow n := by
  calc twoPow (3 * n) = 8 ^ n := Nat.pow_mul 2 3 n
    _ ≤ tenPow n := Nat.pow_le_pow_left (by decide) n

namespace Decimal

/-- The exact number. -/
def value (d : Decimal) : ℚ :=
  d.digits * 10 ^ d.exponent

/-- The value in units is the quotient of `unitsNum` and `unitsDen`. -/
def unitsNum (d : Decimal) : ℕ :=
  d.digits * tenPow d.exponent.toNat * unitsPerOne

/-- The power of ten that a negative exponent divides by. -/
def unitsDen (d : Decimal) : ℕ :=
  tenPow (-d.exponent).toNat

theorem unitsDen_pos (d : Decimal) : 0 < d.unitsDen :=
  tenPow_pos _

theorem unitsNum_div_unitsDen (d : Decimal) :
    (d.unitsNum : ℚ) / d.unitsDen = d.value * unitsPerOne := by
  have hpow : (10 : ℚ) ^ d.exponent = tenPow d.exponent.toNat / tenPow (-d.exponent).toNat := by
    have hcast : ∀ n : ℕ, (tenPow n : ℚ) = 10 ^ n := fun n => Nat.cast_pow 10 n
    rw [hcast, hcast, ← zpow_natCast, ← zpow_natCast, ← zpow_sub₀ (by norm_num),
      Int.toNat_sub_toNat_neg]
  rw [unitsNum, unitsDen, value, hpow]
  generalize unitsPerOne = unit
  push_cast
  ring

/-- With an exponent above 400 every digit but zero overflows. -/
theorem overflowUnits_le_nearestUnits {d : Decimal} (hdigits : d.digits ≠ 0)
    (h : 400 < d.exponent) : overflowUnits ≤ nearestUnits d.unitsNum d.unitsDen := by
  have hden : d.unitsDen = 1 := by
    rw [unitsDen, Int.toNat_of_nonpos (by omega)]
    rfl
  have hnum : 1 * twoPow magnitudeBits * 1 ≤ d.unitsNum := by
    calc 1 * twoPow magnitudeBits * 1 ≤ 1 * twoPow (3 * 401) * twoPow unitBits := by
          rw [Nat.one_mul, Nat.one_mul, Nat.mul_one, ← twoPow_add]
          exact twoPow_le_twoPow (by decide)
      _ ≤ d.unitsNum := by
          apply Nat.mul_le_mul_right
          apply Nat.mul_le_mul (Nat.pos_of_ne_zero hdigits)
          exact (twoPow_le_twoPow (by omega)).trans (twoPow_three_mul_le_tenPow _)
  have hle := le_nearestUnits (by decide) Nat.one_pos hnum
  rwa [Nat.one_mul, ← hden] at hle

/-- With an exponent so far below -400 that the digits do not make up for it, at most half a unit is
left. -/
theorem two_mul_unitsNum_le {d : Decimal} (h : d.exponent < -(400 + d.digits.log2 : ℤ)) :
    2 * d.unitsNum ≤ d.unitsDen := by
  have hexp : d.exponent.toNat = 0 := Int.toNat_of_nonpos (by omega)
  have hone : tenPow 0 = 1 := rfl
  have hlog : d.digits ≤ twoPow (d.digits.log2 + 1) := Nat.lt_log2_self.le
  calc 2 * d.unitsNum = 2 * (d.digits * unitsPerOne) := by rw [unitsNum, hexp, hone, Nat.mul_one]
    _ ≤ 2 * (twoPow (d.digits.log2 + 1) * twoPow unitBits) :=
        Nat.mul_le_mul_left _ (Nat.mul_le_mul_right _ hlog)
    _ = twoPow (d.digits.log2 + 1 + unitBits + 1) := by rw [← twoPow_add, ← twoPow_succ]
    _ ≤ twoPow (3 * (-d.exponent).toNat) := twoPow_le_twoPow (by rw [unitBits]; omega)
    _ ≤ d.unitsDen := twoPow_three_mul_le_tenPow _

end Decimal

/-! ### Rounding once -/

namespace Binary64

theorem ofQuotient_eq_signedZero (negative : Bool) {num den : ℕ} (hden : 0 < den)
    (h : 2 * num ≤ den) : ofQuotient negative num den = signedZero negative := by
  have hzero := (nearestUnits_eq_zero_iff hden).2 h
  have hlt : nearestUnits num den < overflowUnits := hzero.trans_lt overflowUnits_pos
  rw [ofQuotient_of_lt negative hlt, signedZero]
  simp only [hzero]

/-- The shortcuts for extreme exponents change nothing: a decimal is always rounded as the quotient. -/
theorem ofDecimal_eq_ofQuotient (negative : Bool) (d : Decimal) :
    ofDecimal negative d = ofQuotient negative d.unitsNum d.unitsDen := by
  rw [ofDecimal]
  -- zero digits, a large and a very small exponent are decided without the power of ten
  split_ifs with hdigits hlarge hsmall
  · have hnum : d.unitsNum = 0 := by rw [Decimal.unitsNum, hdigits, Nat.zero_mul, Nat.zero_mul]
    rw [ofQuotient_eq_signedZero negative d.unitsDen_pos (by omega)]
  · rw [ofQuotient_of_not_lt negative (d.overflowUnits_le_nearestUnits hdigits hlarge).not_gt]
  · rw [ofQuotient_eq_signedZero negative d.unitsDen_pos (d.two_mul_unitsNum_le hsmall)]
  · rfl

end Binary64

end EditList
