import EditList.Proofs.Binary64.Error
import Mathlib.Algebra.Group.Nat.Even
import Mathlib.Data.Real.Basic
import Mathlib.Tactic.FieldSimp
import Mathlib.Tactic.NormNum

/-!
# Nothing is nearer

What the two roundings of the library return is nearest to what they are given.  For `roundDiv` this is
a statement about whole numbers (`IsNearestWhole`).  For `nearestUnits` it is one about all magnitudes of at
most 53 significant bits, and these lie on many grids.  A magnitude on a finer grid than the quotient's own
is below the quotient, with the first number of the quotient's grid between them, so it is farther away
(`lt_abs_sub_or_multiple`); all others are multiples of the step that is rounded to.

Of two nearest magnitudes the one whose last bit is zero is taken (`lastBit_nearestUnits_of_tie`).  That
decides between any two, since neighbours differ in their last bit (`lastBit_ne_of_neighbours`).
-/

namespace EditList

/-! ### The nearest whole number -/

/-- Whether `k` is the whole number nearest to `q`, of two the even one. -/
structure IsNearestWhole (q : ℝ) (k : ℕ) : Prop where
  le : ∀ j : ℕ, |(k : ℝ) - q| ≤ |(j : ℝ) - q|
  even_of_tie : ∀ j : ℕ, j ≠ k → |(j : ℝ) - q| = |(k : ℝ) - q| → Even k

/-- A whole number at most half a step away is nearest, since any other one is at least that far. -/
theorem isNearestWhole_of_abs_sub_le {q : ℝ} {k : ℕ} (hle : |(k : ℝ) - q| ≤ 1 / 2)
    (htie : |(k : ℝ) - q| = 1 / 2 → Even k) : IsNearestWhole q k := by
  have hother : ∀ j : ℕ, j ≠ k → 1 / 2 ≤ |(j : ℝ) - q| := by
    intro j hj
    have hstep : (1 : ℝ) ≤ |(j : ℝ) - k| := by
      have hint : (1 : ℤ) ≤ |(j : ℤ) - k| := Int.one_le_abs (by omega)
      exact_mod_cast hint
    have htriangle := abs_sub_le (j : ℝ) q k
    rw [abs_sub_comm q] at htriangle
    linarith
  constructor
  · intro j
    rcases eq_or_ne j k with rfl | hj
    · exact le_rfl
    · exact hle.trans (hother j hj)
  · intro j hj heq
    exact htie (le_antisymm hle (heq ▸ hother j hj))

theorem isNearestWhole_roundDiv (num : ℕ) {den : ℕ} (hden : 0 < den) :
    IsNearestWhole (num / den) (roundDiv .toEven num den) := by
  have hpos : (0 : ℝ) < den := Nat.cast_pos.2 hden
  have hquot : (num : ℝ) / den * den = num := div_mul_cancel₀ _ hpos.ne'
  have hbelow := two_mul_roundDiv_le .toEven num den
  have habove := two_mul_le_roundDiv .toEven num hden
  have hiff := fun k => @roundDiv_toEven_le_iff k num den hden
  generalize roundDiv .toEven num den = k at hbelow habove hiff ⊢
  apply isNearestWhole_of_abs_sub_le
  · have hle : (2 * (k * den) : ℝ) ≤ 2 * num + den := by exact_mod_cast hbelow
    have hge : (2 * num : ℝ) ≤ 2 * (k * den) + den := by exact_mod_cast habove
    rw [abs_le]
    constructor <;> nlinarith
  · intro htie
    rw [Nat.even_iff]
    rcases (abs_eq (by norm_num)).1 htie with htie | htie
    · -- the quotient is the middle of `k - 1` and `k`
      have hmiddle : 2 * num + den = 2 * (k * den) := by
        have h : (2 * num + den : ℝ) = 2 * (k * den) := by nlinarith
        exact_mod_cast h
      cases k with
      | zero => omega
      | succ j =>
        have hdown := hiff j
        have hstep : (2 * j + 1) * den = 2 * (j * den) + den := by ring
        have hsucc : (j + 1) * den = j * den + den := Nat.succ_mul j den
        rw [hstep] at hdown
        omega
    · have hmiddle : 2 * num = (2 * k + 1) * den := by
        have h : (2 * num : ℝ) = (2 * k + 1) * den := by nlinarith
        exact_mod_cast h
      have hself := hiff k
      omega

/-! ### The nearest magnitude -/

/-- A magnitude of at most 53 significant bits, however large. -/
def HasShortSignificand (v : ℕ) : Prop :=
  ∃ m e, m < twoPow 53 ∧ v = m * twoPow e

/-- The last bit of the significand of a magnitude. -/
def lastBit (v : ℕ) : ℕ :=
  v / twoPow (surplusBits v) % 2

theorem twoPow_zero : twoPow 0 = 1 :=
  rfl

/-- A carry out of the 53 bits of the significand. -/
theorem twoPow_carry (e : ℕ) : twoPow 53 * twoPow e = twoPow 52 * twoPow (e + 1) := by
  rw [twoPow_succ 52, twoPow_succ e]
  ring

/-- On a finer grid than that of the step `2 ^ s` lie only magnitudes below `2 ^ (52 + s)`. -/
theorem HasShortSignificand.lt_or_multiple {v : ℕ} (hv : HasShortSignificand v) (s : ℕ) :
    v < twoPow 52 * twoPow s ∨ ∃ j, v = j * twoPow s := by
  obtain ⟨m, e, hm, rfl⟩ := hv
  rcases Nat.lt_or_ge e s with he | he
  · left
    calc m * twoPow e < twoPow 53 * twoPow e := Nat.mul_lt_mul_of_pos_right hm (twoPow_pos e)
      _ = twoPow 52 * twoPow (e + 1) := twoPow_carry e
      _ ≤ twoPow 52 * twoPow s := Nat.mul_le_mul_left _ (twoPow_le_twoPow he)
  · right
    exact ⟨m * twoPow (e - s), by rw [Nat.mul_assoc, twoPow_sub_mul he]⟩

/-- A number that has surplus bits has a full significand in front of them. -/
theorem twoPow_le_of_surplusBits {n s : ℕ} (hs : surplusBits n = s) (hpos : 0 < s) :
    twoPow 52 * twoPow s ≤ n := by
  rw [surplusBits] at hs
  have hne : n ≠ 0 := by
    rintro rfl
    simp at hs
    omega
  have hlog : n.log2 = 52 + s := by omega
  rw [← twoPow_add, ← hlog]
  exact Nat.log2_self_le hne

/-- The exponent of a normal number is the count of its surplus bits. -/
theorem surplusBits_eq {m e : ℕ} (hm : m < twoPow 53) (hnormal : e = 0 ∨ twoPow 52 ≤ m) :
    surplusBits (m * twoPow e) = e := by
  rcases Nat.eq_zero_or_pos e with rfl | hpos
  · exact Nat.le_zero.1 (surplusBits_le_of_lt (by simpa [twoPow] using hm))
  · have hge : twoPow 52 ≤ m := by omega
    have h0 : m ≠ 0 := by
      rintro rfl
      exact absurd hge (by decide)
    have hle := surplusBits_mul_twoPow_le e hm h0
    have hlog : 52 + e ≤ (m * twoPow e).log2 := by
      rw [Nat.le_log2 (Nat.mul_ne_zero h0 (twoPow_pos e).ne')]
      calc 2 ^ (52 + e) = twoPow 52 * twoPow e := twoPow_add 52 e
        _ ≤ m * twoPow e := Nat.mul_le_mul_right _ hge
    rw [surplusBits] at hle ⊢
    omega

/-- The last bit of a normal number is that of its significand, also at the carry to `2 ^ 53`. -/
theorem lastBit_mul_twoPow {m e : ℕ} (hm : m ≤ twoPow 53) (hnormal : e = 0 ∨ twoPow 52 ≤ m) :
    lastBit (m * twoPow e) = m % 2 := by
  rcases Nat.lt_or_eq_of_le hm with hlt | rfl
  · rw [lastBit, surplusBits_eq hlt hnormal, Nat.mul_div_cancel _ (twoPow_pos e)]
  · rw [twoPow_carry, lastBit, surplusBits_eq (by decide) (.inr le_rfl),
      Nat.mul_div_cancel _ (twoPow_pos _)]
    decide

/-- A significand can be shifted until it is full or the exponent is zero. -/
theorem HasShortSignificand.exists_normal {v : ℕ} (hv : HasShortSignificand v) :
    ∃ m e, v = m * twoPow e ∧ m < twoPow 53 ∧ (e = 0 ∨ twoPow 52 ≤ m) := by
  obtain ⟨s, hs⟩ : ∃ s, surplusBits v = s := ⟨_, rfl⟩
  have hdiv := div_lt_twoPow_of_surplusBits v 1
  rw [Nat.div_one, hs, Nat.one_mul] at hdiv
  rcases Nat.eq_zero_or_pos s with rfl | hpos
  · rw [twoPow_zero, Nat.div_one] at hdiv
    exact ⟨v, 0, by rw [twoPow_zero, Nat.mul_one], hdiv, .inl rfl⟩
  · have hfirst := twoPow_le_of_surplusBits hs hpos
    rcases hv.lt_or_multiple s with hlt | ⟨j, rfl⟩
    · exact absurd hfirst hlt.not_ge
    · rw [Nat.mul_div_cancel _ (twoPow_pos s)] at hdiv
      exact ⟨j, s, rfl, hdiv, .inr (Nat.le_of_mul_le_mul_right hfirst (twoPow_pos s))⟩

/-- Neighbours differ in their last bit. -/
theorem lastBit_ne_of_neighbours {u v : ℕ} (hu : HasShortSignificand u) (hv : HasShortSignificand v)
    (hlt : u < v) (hbetween : ∀ w, HasShortSignificand w → u < w → v ≤ w) :
    lastBit u ≠ lastBit v := by
  obtain ⟨m, e, rfl, hm, hnormal⟩ := hu.exists_normal
  have hnext : HasShortSignificand ((m + 1) * twoPow e) := by
    rcases Nat.lt_or_eq_of_le (Nat.succ_le_of_lt hm) with hsucc | hsucc
    · exact ⟨m + 1, e, hsucc, rfl⟩
    · refine ⟨twoPow 52, e + 1, by decide, ?_⟩
      rw [← Nat.succ_eq_add_one, hsucc, twoPow_carry]
  -- the next number on the grid is not past `v`
  have hle : (m + 1) * twoPow e ≤ v := by
    rcases hv.lt_or_multiple e with hfine | ⟨j, rfl⟩
    · rcases hnormal with rfl | hge
      · rw [twoPow_zero, Nat.mul_one] at hlt ⊢
        exact hlt
      · have hfirst : twoPow 52 * twoPow e ≤ m * twoPow e := Nat.mul_le_mul_right _ hge
        omega
    · exact Nat.mul_le_mul_right _ (Nat.lt_of_mul_lt_mul_right hlt)
  have hge := hbetween _ hnext (Nat.mul_lt_mul_of_pos_right (Nat.lt_succ_self m) (twoPow_pos e))
  rw [← Nat.le_antisymm hle hge, lastBit_mul_twoPow hm.le hnormal,
    lastBit_mul_twoPow hm (hnormal.imp_right fun h => h.trans (Nat.le_succ m))]
  omega

section

variable {num den v : ℕ}

theorem abs_mul_twoPow_sub (hden : 0 < den) (j s : ℕ) :
    |((j * twoPow s : ℕ) : ℝ) - num / den| =
      |(j : ℝ) - num / (den * twoPow s : ℕ)| * twoPow s := by
  have hpos : (0 : ℝ) < den := Nat.cast_pos.2 hden
  have hstep : (0 : ℝ) < twoPow s := Nat.cast_pos.2 (twoPow_pos s)
  rw [← abs_of_pos hstep, ← abs_mul]
  generalize twoPow s = step at hstep ⊢
  push_cast
  congr 1
  field_simp

/-- A magnitude that is not on the grid of a quotient lies below it, and the smallest magnitude of the
grid lies between the two. -/
theorem lt_abs_sub_or_multiple (num : ℕ) {den v : ℕ} (hden : 0 < den) (hv : HasShortSignificand v) :
    |(nearestUnits num den : ℝ) - num / den| < |(v : ℝ) - num / den| ∨
      ∃ j, v = j * twoPow (surplusBits (num / den)) := by
  obtain ⟨s, hs⟩ : ∃ s, surplusBits (num / den) = s := ⟨_, rfl⟩
  rw [hs]
  rcases hv.lt_or_multiple s with hbelow | hmultiple
  · rcases Nat.eq_zero_or_pos s with rfl | hpos
    · exact .inr ⟨v, by rw [twoPow_zero, Nat.mul_one]⟩
    · left
      have hround := isNearestWhole_roundDiv num (Nat.mul_pos hden (twoPow_pos s))
      -- the quotient reaches the smallest magnitude of its grid, and the other one does not
      have hfirst : ((twoPow 52 * twoPow s : ℕ) : ℝ) ≤ num / den := by
        rw [le_div_iff₀ (Nat.cast_pos.2 hden)]
        exact_mod_cast (Nat.le_div_iff_mul_le hden).1 (twoPow_le_of_surplusBits hs hpos)
      have hlt : (v : ℝ) < (twoPow 52 * twoPow s : ℕ) := Nat.cast_lt.2 hbelow
      calc |(nearestUnits num den : ℝ) - num / den|
          ≤ |((twoPow 52 * twoPow s : ℕ) : ℝ) - num / den| := by
            rw [nearestUnits, hs, abs_mul_twoPow_sub hden, abs_mul_twoPow_sub hden]
            exact mul_le_mul_of_nonneg_right (hround.le _) (Nat.cast_nonneg _)
        _ < |(v : ℝ) - num / den| := by
            rw [abs_of_nonpos (by linarith), abs_of_nonpos (by linarith)]
            linarith
  · exact .inr hmultiple

/-- No magnitude with a short significand is nearer to a quotient than the one it is rounded to. -/
theorem abs_nearestUnits_sub_le_abs_sub (hden : 0 < den) (hv : HasShortSignificand v) :
    |(nearestUnits num den : ℝ) - num / den| ≤ |(v : ℝ) - num / den| := by
  rcases lt_abs_sub_or_multiple num hden hv with hlt | ⟨j, rfl⟩
  · exact hlt.le
  · have hround := isNearestWhole_roundDiv num
      (Nat.mul_pos hden (twoPow_pos (surplusBits (num / den))))
    rw [nearestUnits, abs_mul_twoPow_sub hden, abs_mul_twoPow_sub hden]
    exact mul_le_mul_of_nonneg_right (hround.le j) (Nat.cast_nonneg _)

/-- If another magnitude with a short significand is as near, the last bit of the rounded one is zero. -/
theorem lastBit_nearestUnits_of_tie (hden : 0 < den) (hv : HasShortSignificand v)
    (hne : v ≠ nearestUnits num den)
    (htie : |(v : ℝ) - num / den| = |(nearestUnits num den : ℝ) - num / den|) :
    lastBit (nearestUnits num den) = 0 := by
  obtain ⟨s, hs⟩ : ∃ s, surplusBits (num / den) = s := ⟨_, rfl⟩
  have hquot := div_lt_twoPow_of_surplusBits num den
  rcases lt_abs_sub_or_multiple num hden hv with hlt | ⟨j, rfl⟩
  · exact absurd htie hlt.ne'
  · have hpos := Nat.mul_pos hden (twoPow_pos s)
    have hround := isNearestWhole_roundDiv num hpos
    have hstep : (0 : ℝ) < twoPow s := Nat.cast_pos.2 (twoPow_pos s)
    rw [hs] at hquot hne htie
    rw [nearestUnits, hs] at hne htie ⊢
    rw [abs_mul_twoPow_sub hden, abs_mul_twoPow_sub hden, mul_left_inj' hstep.ne'] at htie
    have heven := hround.even_of_tie j (fun h => hne (by rw [h])) htie
    rw [lastBit_mul_twoPow ((roundDiv_le_succ _ _ _).trans hquot), Nat.even_iff.1 heven]
    -- on a coarse grid the quotient has all of its 53 bits
    rcases Nat.eq_zero_or_pos s with hzero | hspos
    · exact .inl hzero
    · right
      apply le_roundDiv _ hpos
      have hle := (Nat.le_div_iff_mul_le hden).1 (twoPow_le_of_surplusBits hs hspos)
      calc twoPow 52 * (den * twoPow s) = twoPow 52 * twoPow s * den := by ring
        _ ≤ num := hle

end

end EditList
