import EditList.Proofs.Binary64.Rounding
import Mathlib.Algebra.Order.Field.Rat
import Mathlib.Tactic.Linarith

/-!
# How far rounding moves a number

A quotient is at most half a step away from the whole number that it is rounded to (`roundDiv_cases`).
For `nearestUnits` the step depends on the size of the number.

* `abs_nearestUnits_sub_le`: a number below `2 ^ (k + 54)` units is moved by at most `2 ^ k` units.
-/

namespace EditList

/-- A quotient is rounded down or up, and the remainder is on that side of the middle or on it. -/
theorem roundDiv_cases (tie : Tie) (num den : ℕ) :
    roundDiv tie num den = num / den ∧ 2 * (num % den) ≤ den ∨
      roundDiv tie num den = num / den + 1 ∧ den ≤ 2 * (num % den) := by
  have hparity := Nat.mod_two_eq_zero_or_one (num / den)
  simp only [roundDiv]
  split_ifs with hdown hup
  · exact .inl ⟨rfl, hdown.le⟩
  · exact .inr ⟨rfl, hup.le⟩
  · cases tie with
    | toEven =>
      dsimp only
      rcases hparity with heven | hodd
      · exact .inl ⟨by rw [heven, Nat.add_zero], Nat.le_of_not_lt hup⟩
      · exact .inr ⟨by rw [hodd], Nat.le_of_not_lt hdown⟩
    | up => exact .inr ⟨rfl, Nat.le_of_not_lt hdown⟩

theorem two_mul_roundDiv_le (tie : Tie) (num den : ℕ) :
    2 * (roundDiv tie num den * den) ≤ 2 * num + den := by
  have hnum := Nat.div_add_mod' num den
  rcases roundDiv_cases tie num den with ⟨hround, -⟩ | ⟨hround, hr⟩
  · rw [hround]
    omega
  · rw [hround, Nat.succ_mul (num / den)]
    omega

theorem two_mul_le_roundDiv (tie : Tie) (num : ℕ) {den : ℕ} (hden : 0 < den) :
    2 * num ≤ 2 * (roundDiv tie num den * den) + den := by
  have hnum := Nat.div_add_mod' num den
  rcases roundDiv_cases tie num den with ⟨hround, hr⟩ | ⟨hround, -⟩
  · rw [hround]
    omega
  · have hlt := Nat.mod_lt num hden
    rw [hround, Nat.succ_mul (num / den)]
    omega

/-- A number of `k + 53` bits has at most `k` bits too many for a significand. -/
theorem surplusBits_le_of_lt {n k : ℕ} (h : n < twoPow (k + 53)) : surplusBits n ≤ k := by
  rw [surplusBits]
  rcases Nat.eq_zero_or_pos n with rfl | hpos
  · simp
  · have hlog := log2_lt_of_lt_twoPow hpos.ne' h
    omega

/-- Half a step of a coarser grid bounds the error as well. -/
theorem nearestUnits_error {num den k : ℕ} (hden : 0 < den) (h : num < twoPow (k + 54) * den) :
    nearestUnits num den * den ≤ num + twoPow k * den ∧
      num ≤ nearestUnits num den * den + twoPow k * den := by
  set s := surplusBits (num / den) with hs
  have hgrid : den * twoPow s ≤ 2 * (twoPow k * den) := by
    rw [Nat.mul_comm, ← Nat.mul_assoc, ← twoPow_succ]
    exact Nat.mul_le_mul_right den
      (twoPow_le_twoPow (surplusBits_le_of_lt ((Nat.div_lt_iff_lt_mul hden).2 h)))
  have hcross : nearestUnits num den * den =
      roundDiv .toEven num (den * twoPow s) * (den * twoPow s) := by
    rw [nearestUnits, ← hs, Nat.mul_assoc, Nat.mul_comm (twoPow s)]
  have hle := two_mul_roundDiv_le .toEven num (den * twoPow s)
  have hge := two_mul_le_roundDiv .toEven num (Nat.mul_pos hden (twoPow_pos s))
  rw [hcross]
  omega

/-- Below `2 ^ (k + 54)` units the rounding error is at most `2 ^ k` units. -/
theorem abs_nearestUnits_sub_le {num den k : ℕ} (hden : 0 < den) (h : num < twoPow (k + 54) * den) :
    |(nearestUnits num den : ℚ) - num / den| ≤ twoPow k := by
  have hpos : (0 : ℚ) < den := Nat.cast_pos.2 hden
  obtain ⟨hle, hge⟩ := nearestUnits_error hden h
  have hle' : (nearestUnits num den : ℚ) - twoPow k ≤ num / den := by
    rw [le_div_iff₀ hpos, sub_mul, sub_le_iff_le_add]
    exact_mod_cast hle
  have hge' : (num : ℚ) / den ≤ nearestUnits num den + twoPow k := by
    rw [div_le_iff₀ hpos, add_mul]
    exact_mod_cast hge
  rw [abs_sub_le_iff]
  constructor <;> linarith

theorem cast_twoPow_add (a b : ℕ) : (twoPow (a + b) : ℚ) = 2 ^ a * twoPow b := by
  rw [twoPow_add, Nat.cast_mul]
  congr 1
  exact Nat.cast_pow 2 a

end EditList
