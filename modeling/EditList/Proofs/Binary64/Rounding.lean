import EditList.Binary64.Rounding
import Mathlib.Algebra.Order.Ring.Nat
import Mathlib.Tactic.Ring

/-!
# Rounding is monotone and exact

Both roundings of the library keep the order (`roundDiv_mono`, `nearestUnits_mono`) and leave a value
that needs no rounding as it is (`roundDiv_mul`, `nearestUnits_mul`).  Together they bound a rounded
value by any representable one: to show that a number does not round past `m * 2 ^ e` it is enough to
show that it does not lie past it.

Monotonicity of `nearestUnits` is not immediate, since the grid that a number is rounded to depends on
its size.  Two numbers of the same size share a grid; otherwise a power of two lies between them, and
it is on both grids (`nearestUnits_le_twoPow`, `twoPow_le_nearestUnits`).
-/

namespace EditList

theorem twoPow_add (a b : ℕ) : twoPow (a + b) = twoPow a * twoPow b :=
  Nat.pow_add 2 a b

theorem twoPow_eq_mul {a b c : ℕ} (h : a = b + c) : twoPow a = twoPow b * twoPow c := by
  rw [h, twoPow_add]

theorem twoPow_le_twoPow {a b : ℕ} (h : a ≤ b) : twoPow a ≤ twoPow b :=
  Nat.pow_le_pow_right (by decide) h

theorem twoPow_lt_twoPow {a b : ℕ} (h : a < b) : twoPow a < twoPow b :=
  Nat.pow_lt_pow_right (by decide) h

/-- A power of two is a multiple of every smaller one. -/
theorem twoPow_sub_mul {a b : ℕ} (h : b ≤ a) : twoPow (a - b) * twoPow b = twoPow a := by
  rw [← twoPow_add, Nat.sub_add_cancel h]

/-! ### `roundDiv` -/

theorem div_le_roundDiv (tie : Tie) (num den : ℕ) : num / den ≤ roundDiv tie num den := by
  simp only [roundDiv]
  split
  · exact Nat.le_refl _
  · split
    · omega
    · cases tie <;> simp only <;> omega

theorem roundDiv_mono (tie : Tie) {a b : ℕ} (den : ℕ) (h : a ≤ b) :
    roundDiv tie a den ≤ roundDiv tie b den := by
  rcases Nat.lt_or_ge (a / den) (b / den) with hq | hq
  · -- a whole number separates the two
    calc roundDiv tie a den ≤ a / den + 1 := roundDiv_le_succ tie a den
      _ ≤ b / den := hq
      _ ≤ roundDiv tie b den := div_le_roundDiv tie b den
  · -- the quotients are equal, so the remainders are in order
    have hq' : a / den = b / den := Nat.le_antisymm (Nat.div_le_div_right h) hq
    have hr : a % den ≤ b % den := by
      have ha := Nat.div_add_mod a den
      have hb := Nat.div_add_mod b den
      rw [hq'] at ha
      omega
    simp only [roundDiv, hq']
    cases tie <;> simp only <;> split_ifs <;> omega

theorem roundDiv_mul (tie : Tie) (k : ℕ) {den : ℕ} (hden : 0 < den) :
    roundDiv tie (k * den) den = k := by
  simp only [roundDiv, Nat.mul_div_cancel k hden, Nat.mul_mod_left, Nat.mul_zero, hden, ite_true]

theorem le_roundDiv (tie : Tie) {k num den : ℕ} (hden : 0 < den) (h : k * den ≤ num) :
    k ≤ roundDiv tie num den := by
  rw [← roundDiv_mul tie k hden]
  exact roundDiv_mono tie den h

theorem roundDiv_le (tie : Tie) {k num den : ℕ} (hden : 0 < den) (h : num ≤ k * den) :
    roundDiv tie num den ≤ k := by
  rw [← roundDiv_mul tie k hden]
  exact roundDiv_mono tie den h

/-- What lies below the middle of `k` and `k + 1` does not round past `k`. -/
theorem roundDiv_le_of_two_mul_lt (tie : Tie) {k num den : ℕ} (h : 2 * num < (2 * k + 1) * den) :
    roundDiv tie num den ≤ k := by
  have hden : 0 < den := by
    rcases Nat.eq_zero_or_pos den with rfl | hpos
    · omega
    · exact hpos
  have hk : (2 * k + 1) * den = 2 * (k * den) + den := by ring
  rw [hk] at h
  have hq : num / den ≤ k := by
    rw [← Nat.lt_succ_iff, Nat.div_lt_iff_lt_mul hden, Nat.succ_mul]
    omega
  rcases Nat.lt_or_eq_of_le hq with hlt | heq
  · exact (roundDiv_le_succ tie num den).trans hlt
  · -- between `k` and the middle, so it is rounded down
    have hr : 2 * (num % den) < den := by
      have hdm := Nat.div_add_mod' num den
      rw [heq] at hdm
      omega
    simp only [roundDiv, hr, ite_true]
    exact hq

/-- With halves rounded up, exactly what lies below one half becomes zero. -/
theorem roundDiv_up_eq_zero_iff {num den : ℕ} (hden : 0 < den) :
    roundDiv .up num den = 0 ↔ 2 * num < den := by
  constructor
  · intro h
    by_contra hge
    rcases Nat.lt_or_ge num den with hlt | hge'
    · simp only [roundDiv, Nat.div_eq_of_lt hlt, Nat.mod_eq_of_lt hlt] at h
      split_ifs at h
    · have := le_roundDiv .up hden (by rwa [Nat.one_mul] : 1 * den ≤ num)
      omega
  · intro h
    exact Nat.le_zero.1 (roundDiv_le_of_two_mul_lt .up (by omega))

/-- A quotient rounds to at most `k` when it lies below the middle of `k` and `k + 1`, or on it and `k`
is even. -/
theorem roundDiv_toEven_le_iff {k num den : ℕ} (hden : 0 < den) :
    roundDiv .toEven num den ≤ k ↔
      2 * num < (2 * k + 1) * den ∨ 2 * num = (2 * k + 1) * den ∧ k % 2 = 0 := by
  have hmiddle : (2 * k + 1) * den = 2 * (k * den) + den := by ring
  have hnum := Nat.div_add_mod' num den
  have hr := Nat.mod_lt num hden
  rcases Nat.lt_trichotomy (num / den) k with hq | hq | hq
  · have hle := roundDiv_le_succ .toEven num den
    have hnext : (num / den + 1) * den ≤ k * den := Nat.mul_le_mul_right den hq
    rw [Nat.succ_mul] at hnext
    exact iff_of_true (hle.trans hq) (.inl (by omega))
  · -- the remainder decides
    rw [hq] at hnum
    simp only [roundDiv, hq]
    split_ifs <;> omega
  · have hge := div_le_roundDiv .toEven num den
    have hnext : (k + 1) * den ≤ num / den * den := Nat.mul_le_mul_right den hq
    rw [Nat.succ_mul] at hnext
    exact iff_of_false (by omega) (by omega)

/-- With halves rounded to even, one half becomes zero too. -/
theorem roundDiv_toEven_eq_zero_iff {num den : ℕ} (hden : 0 < den) :
    roundDiv .toEven num den = 0 ↔ 2 * num ≤ den := by
  rw [← Nat.le_zero, roundDiv_toEven_le_iff hden]
  omega

/-! ### `nearestUnits` -/

theorem log2_le_log2 {a b : ℕ} (h : a ≤ b) : a.log2 ≤ b.log2 := by
  rcases Nat.eq_zero_or_pos a with rfl | ha
  · simp
  · rw [Nat.le_log2 (ha.trans_le h).ne']
    exact (Nat.log2_self_le ha.ne').trans h

theorem log2_lt_of_lt_twoPow {n k : ℕ} (hn : n ≠ 0) (h : n < twoPow k) : n.log2 < k :=
  (Nat.log2_lt hn).2 h

/-- The grid of a number is no coarser than the power of two at or below it. -/
theorem surplusBits_le_log2 (n : ℕ) : surplusBits n ≤ n.log2 :=
  Nat.sub_le _ _

/-- Rounding does not carry a quotient past the next power of two. -/
theorem nearestUnits_le_twoPow (num : ℕ) {den : ℕ} (hden : 0 < den) :
    nearestUnits num den ≤ twoPow ((num / den).log2 + 1) := by
  set L := (num / den).log2 with hL
  set s := surplusBits (num / den) with hs
  have hsL : s ≤ L + 1 := (surplusBits_le_log2 _).trans (Nat.le_succ _)
  have hlt : num < twoPow (L + 1) * den := by
    rw [← Nat.div_lt_iff_lt_mul hden]
    exact Nat.lt_log2_self
  have hround : roundDiv .toEven num (den * twoPow s) ≤ twoPow (L + 1 - s) := by
    apply roundDiv_le _ (Nat.mul_pos hden (twoPow_pos s))
    calc num ≤ twoPow (L + 1) * den := hlt.le
      _ = twoPow (L + 1 - s) * (den * twoPow s) := by rw [← twoPow_sub_mul hsL]; ring
  calc nearestUnits num den = roundDiv .toEven num (den * twoPow s) * twoPow s := rfl
    _ ≤ twoPow (L + 1 - s) * twoPow s := Nat.mul_le_mul_right _ hround
    _ = twoPow (L + 1) := twoPow_sub_mul hsL

/-- Rounding does not take a quotient below its leading power of two. -/
theorem twoPow_le_nearestUnits {num den : ℕ} (hden : 0 < den) (h : num / den ≠ 0) :
    twoPow (num / den).log2 ≤ nearestUnits num den := by
  set L := (num / den).log2 with hL
  set s := surplusBits (num / den) with hs
  have hsL : s ≤ L := surplusBits_le_log2 _
  have hle : twoPow L * den ≤ num := by
    rw [← Nat.le_div_iff_mul_le hden]
    exact Nat.log2_self_le h
  have hround : twoPow (L - s) ≤ roundDiv .toEven num (den * twoPow s) := by
    apply le_roundDiv _ (Nat.mul_pos hden (twoPow_pos s))
    calc twoPow (L - s) * (den * twoPow s) = twoPow L * den := by rw [← twoPow_sub_mul hsL]; ring
      _ ≤ num := hle
  calc twoPow L = twoPow (L - s) * twoPow s := (twoPow_sub_mul hsL).symm
    _ ≤ roundDiv .toEven num (den * twoPow s) * twoPow s := Nat.mul_le_mul_right _ hround
    _ = nearestUnits num den := rfl

/-- Up to half a unit, and not beyond, a quotient is rounded to zero. -/
theorem nearestUnits_eq_zero_iff {num den : ℕ} (hden : 0 < den) :
    nearestUnits num den = 0 ↔ 2 * num ≤ den := by
  have hone : twoPow (surplusBits 0) = 1 := rfl
  rcases Nat.eq_zero_or_pos (num / den) with hquot | hquot
  · rw [nearestUnits, hquot, hone, Nat.mul_one, Nat.mul_one, roundDiv_toEven_eq_zero_iff hden]
  · have hle := twoPow_le_nearestUnits hden hquot.ne'
    have hpos := twoPow_pos (num / den).log2
    have hge : den ≤ num := (Nat.div_pos_iff.1 hquot).2
    exact iff_of_false (by omega) (by omega)

/-- Rounding to a magnitude keeps the order, also across powers of two, where the grid gets coarser. -/
theorem nearestUnits_mono {a b den : ℕ} (hden : 0 < den) (h : a ≤ b) :
    nearestUnits a den ≤ nearestUnits b den := by
  have hq : a / den ≤ b / den := Nat.div_le_div_right h
  rcases Nat.eq_or_lt_of_le (log2_le_log2 hq) with heq | hlt
  · -- one grid for both
    have hs : surplusBits (a / den) = surplusBits (b / den) := by rw [surplusBits, surplusBits, heq]
    simp only [nearestUnits, hs]
    exact Nat.mul_le_mul_right _ (roundDiv_mono _ _ h)
  · -- a power of two lies between them, and neither is rounded past it
    have hb : b / den ≠ 0 := by
      intro h0
      rw [h0] at hlt
      simp at hlt
    calc nearestUnits a den ≤ twoPow ((a / den).log2 + 1) := nearestUnits_le_twoPow a hden
      _ ≤ twoPow (b / den).log2 := twoPow_le_twoPow hlt
      _ ≤ nearestUnits b den := twoPow_le_nearestUnits hden hb

/-- A number of at most 53 significant bits is on its own grid. -/
theorem surplusBits_mul_twoPow_le {m : ℕ} (e : ℕ) (hm : m < twoPow 53) (h0 : m ≠ 0) :
    surplusBits (m * twoPow e) ≤ e := by
  have hlt : m * twoPow e < twoPow (53 + e) := by
    rw [twoPow_add]
    exact Nat.mul_lt_mul_of_pos_right hm (twoPow_pos e)
  have hne : m * twoPow e ≠ 0 := Nat.mul_ne_zero h0 (twoPow_pos e).ne'
  have hlog := log2_lt_of_lt_twoPow hne hlt
  rw [surplusBits]
  omega

/-- A magnitude of at most 53 significant bits is not changed. -/
theorem nearestUnits_mul {m : ℕ} (e : ℕ) {den : ℕ} (hden : 0 < den) (hm : m < twoPow 53) :
    nearestUnits (m * twoPow e * den) den = m * twoPow e := by
  rcases Nat.eq_zero_or_pos m with rfl | hpos
  · have h0 := roundDiv_mul .toEven 0 (Nat.mul_pos hden (twoPow_pos (surplusBits (0 / den))))
    rw [Nat.zero_mul] at h0
    simp only [Nat.zero_mul, nearestUnits, h0]
  · have hs := surplusBits_mul_twoPow_le e hm hpos.ne'
    simp only [nearestUnits, Nat.mul_div_cancel _ hden]
    set s := surplusBits (m * twoPow e)
    -- the number is a multiple of its grid, so there is nothing to round
    have hsplit : m * twoPow e * den = m * twoPow (e - s) * (den * twoPow s) := by
      rw [← twoPow_sub_mul hs]
      ring
    rw [hsplit, roundDiv_mul _ _ (Nat.mul_pos hden (twoPow_pos s)), Nat.mul_assoc, twoPow_sub_mul hs]

theorem nearestUnits_le {m e num den : ℕ} (hm : m < twoPow 53) (hden : 0 < den)
    (h : num ≤ m * twoPow e * den) : nearestUnits num den ≤ m * twoPow e := by
  rw [← nearestUnits_mul e hden hm]
  exact nearestUnits_mono hden h

theorem le_nearestUnits {m e num den : ℕ} (hm : m < twoPow 53) (hden : 0 < den)
    (h : m * twoPow e * den ≤ num) : m * twoPow e ≤ nearestUnits num den := by
  rw [← nearestUnits_mul e hden hm]
  exact nearestUnits_mono hden h

end EditList
