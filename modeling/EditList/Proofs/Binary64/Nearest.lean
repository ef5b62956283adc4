import EditList.Decimal.Fixed
import EditList.Proofs.Binary64.Exact
import EditList.Proofs.Binary64.Grid

/-!
# Correct rounding

`Binary64.IsNearest` says what it means that a real number is rounded to the nearest binary64 number, ties
to even, without reference to how that is computed: no finite number is nearer, and if another one is as
near, the last bit of the encoding is zero.  Numbers from the middle between the largest finite number and
`2 ^ 1024` on overflow.

* `isNearest_ofQuotient`: the rounding of the library gives the nearest number.
* `IsNearest.unique`: there is only one with a given sign.

`Binary64.IsRounded` adds the overflow, so that every number with a sign is rounded to exactly one binary64
number (`isRounded_ofQuotient`, `IsRounded.unique`).
-/

namespace EditList.Binary64

/-! ### Signs -/

/-- The number with the given sign. -/
def signed (negative : Bool) (q : ℝ) : ℝ :=
  if negative then -q else q

theorem value_finite (negative : Bool) {u : ℕ} (hu : Representable u) :
    (finite negative u hu).value = signed negative (u / unitsPerOne) := by
  cases negative with
  | false => exact one_mul _
  | true => exact neg_one_mul _

theorem signed_zero (negative : Bool) : signed negative 0 = 0 := by
  cases negative with
  | false => rfl
  | true => exact neg_zero

theorem signed_not (negative : Bool) (q : ℝ) : signed (!negative) q = -signed negative q := by
  cases negative with
  | false => rfl
  | true => exact (neg_neg q).symm

theorem value_signedZero (negative : Bool) : (signedZero negative).value = 0 := by
  rw [signedZero, value_finite, Nat.cast_zero, zero_div, signed_zero]

theorem abs_signed {q : ℝ} (h : 0 ≤ q) (negative : Bool) : |signed negative q| = q := by
  cases negative with
  | false => exact abs_of_nonneg h
  | true => rw [signed, if_pos rfl, abs_neg, abs_of_nonneg h]

theorem abs_signed_sub_signed (negative : Bool) (a b : ℝ) :
    |signed negative a - signed negative b| = |a - b| := by
  cases negative with
  | false => rfl
  | true => rw [signed, signed, if_pos rfl, if_pos rfl, neg_sub_neg, abs_sub_comm]

/-- With different signs two numbers are as far apart as their sum is large. -/
theorem abs_signed_sub_signed_of_ne {s t : Bool} (h : s ≠ t) {a b : ℝ} (ha : 0 ≤ a) (hb : 0 ≤ b) :
    |signed s a - signed t b| = a + b := by
  cases s <;> cases t
  · exact absurd rfl h
  · show |a - -b| = a + b
    rw [sub_neg_eq_add, abs_of_nonneg (add_nonneg ha hb)]
  · show |-a - b| = a + b
    rw [← neg_add', abs_neg, abs_of_nonneg (add_nonneg ha hb)]
  · exact absurd rfl h

/-- Signs do not bring two numbers nearer to one another than their magnitudes are. -/
theorem abs_sub_le_abs_signed_sub (s t : Bool) {a b : ℝ} (ha : 0 ≤ a) (hb : 0 ≤ b) :
    |a - b| ≤ |signed s a - signed t b| := by
  rcases eq_or_ne s t with rfl | hst
  · rw [abs_signed_sub_signed]
  · rw [abs_signed_sub_signed_of_ne hst ha hb]
    exact abs_le.2 ⟨by linarith, by linarith⟩

/-! ### The nearest number -/

/-- Whether `x` is the number nearest to `q`, of two the one whose last bit is zero. -/
structure IsNearest (x : Binary64) (q : ℝ) : Prop where
  isFinite : x.isFinite = true
  /-- From the middle of the largest number and `2 ^ 1024` on, numbers overflow. -/
  inRange : |q| < 2 ^ 1024 - 2 ^ 970
  le : ∀ y : Binary64, y.isFinite = true → |x.value - q| ≤ |y.value - q|
  even_of_tie : ∀ y : Binary64, y.isFinite = true → y.value ≠ x.value →
    |y.value - q| = |x.value - q| → x.toBits % 2 = 0

/-- The last bit of the encoding is the last bit of the significand. -/
theorem toBits_mod_two (negative : Bool) {u : ℕ} (hu : Representable u) :
    (finite negative u hu).toBits % 2 = lastBit u := by
  have h63 : twoPow 63 = 2 * twoPow 62 := twoPow_succ 62
  have h52 : twoPow 52 = 2 * twoPow 51 := twoPow_succ 51
  rw [toBits, lastBit, h63, h52, Nat.mul_left_comm, Nat.mul_left_comm (surplusBits u)]
  omega

theorem exists_of_isFinite {x : Binary64} (h : x.isFinite = true) :
    ∃ negative u hu, x = finite negative u hu := by
  cases x with
  | nan => cases h
  | infinite s => cases h
  | finite s u hu => exact ⟨s, u, hu, rfl⟩

theorem rangeEnd_eq :
    (2 ^ 1024 - 2 ^ 970 : ℝ) = ((twoPow 54 - 1) * twoPow 2044 : ℕ) / unitsPerOne := by
  have hcast : ∀ n : ℕ, (twoPow n : ℝ) = 2 ^ n := fun n => Nat.cast_pow 2 n
  have h54 : ((twoPow 54 - 1 : ℕ) : ℝ) = 2 ^ 54 - 1 := by
    rw [Nat.cast_sub (twoPow_pos 54), hcast, Nat.cast_one]
  have hhigh : (2 ^ 1024 : ℝ) = 2 ^ 54 * 2 ^ 970 := by rw [← pow_add]
  have hlow : (2 ^ 2044 : ℝ) = 2 ^ 970 * 2 ^ 1074 := by rw [← pow_add]
  rw [eq_div_iff (Nat.cast_ne_zero.2 unitsPerOne_pos.ne'), unitsPerOne, unitBits, Nat.cast_mul, h54,
    hcast, hcast, hhigh, hlow]
  -- large powers must not be evaluated
  generalize (2 ^ 970 : ℝ) = a
  generalize (2 ^ 1074 : ℝ) = b
  ring

/-- A quotient overflows exactly when it reaches the middle between the largest number and `2 ^
1024`. -/
theorem quotient_lt_rangeEnd_iff {num den : ℕ} (hden : 0 < den) :
    (num / den / unitsPerOne : ℝ) < 2 ^ 1024 - 2 ^ 970 ↔ nearestUnits num den < overflowUnits := by
  rw [rangeEnd_eq, div_lt_div_iff_of_pos_right (Nat.cast_pos.2 unitsPerOne_pos),
    div_lt_iff₀ (Nat.cast_pos.2 hden), nearestUnits_lt_overflowUnits_iff hden]
  exact_mod_cast Iff.rfl

/-- The distance of a number from one that is given in units and has the same sign. -/
theorem abs_value_sub (negative : Bool) {u : ℕ} (hu : Representable u) (a : ℝ) :
    |(finite negative u hu).value - signed negative (a / unitsPerOne)| = |u - a| / unitsPerOne := by
  rw [value_finite, abs_signed_sub_signed, ← sub_div, abs_div, Nat.abs_cast]

/-- With any other sign a number is no nearer than with the right one. -/
theorem le_abs_value_sub (s t : Bool) {u : ℕ} (hu : Representable u) {a : ℝ} (ha : 0 ≤ a) :
    |u - a| / unitsPerOne ≤ |(finite s u hu).value - signed t (a / unitsPerOne)| := by
  have hunit : (0 : ℝ) ≤ unitsPerOne := Nat.cast_nonneg _
  rw [← abs_value_sub t hu, value_finite, value_finite, abs_signed_sub_signed]
  exact abs_sub_le_abs_signed_sub s t (div_nonneg (Nat.cast_nonneg _) hunit) (div_nonneg ha hunit)

/-- A number that is as near with the other sign is zero, unless it is compared with zero. -/
theorem value_eq_of_abs_eq {s t : Bool} {u : ℕ} {hu : Representable u} {a : ℝ}
    (ha : u = 0 ∨ 0 < a)
    (h : |(finite s u hu).value - signed t (a / unitsPerOne)| = |u - a| / unitsPerOne) :
    (finite s u hu).value = (finite t u hu).value := by
  have hunit : (0 : ℝ) < unitsPerOne := Nat.cast_pos.2 unitsPerOne_pos
  have hu0 : (0 : ℝ) ≤ u / unitsPerOne := div_nonneg (Nat.cast_nonneg _) hunit.le
  rw [value_finite, value_finite]
  rcases eq_or_ne s t with rfl | hst
  · rfl
  · rcases ha with rfl | ha
    · rw [Nat.cast_zero, zero_div, signed_zero, signed_zero]
    · have ha' : 0 < a / unitsPerOne := div_pos ha hunit
      rw [← abs_value_sub t hu, value_finite, value_finite, abs_signed_sub_signed,
        abs_signed_sub_signed_of_ne hst hu0 ha'.le] at h
      have hzero : (u : ℝ) / unitsPerOne = 0 := by
        rcases abs_cases ((u : ℝ) / unitsPerOne - a / unitsPerOne) with ⟨habs, -⟩ | ⟨habs, -⟩ <;>
          linarith
      rw [hzero]
      simp [signed]

/-- A quotient is rounded to the number nearest to it. -/
theorem isNearest_ofQuotient (negative : Bool) {num den : ℕ} (hden : 0 < den)
    (hfin : nearestUnits num den < overflowUnits) :
    (ofQuotient negative num den).IsNearest (signed negative (num / den / unitsPerOne)) := by
  have hunit : (0 : ℝ) < unitsPerOne := Nat.cast_pos.2 unitsPerOne_pos
  have hquot : (0 : ℝ) ≤ num / den := div_nonneg (Nat.cast_nonneg _) (Nat.cast_nonneg _)
  rw [ofQuotient_of_lt negative hfin]
  refine ⟨rfl, ?_, ?_, ?_⟩
  · rw [abs_signed (div_nonneg hquot hunit.le)]
    exact (quotient_lt_rangeEnd_iff hden).2 hfin
  · intro y hy
    obtain ⟨t, v, hv, rfl⟩ := exists_of_isFinite hy
    rw [abs_value_sub]
    calc |(nearestUnits num den : ℝ) - num / den| / unitsPerOne
        ≤ |(v : ℝ) - num / den| / unitsPerOne :=
          div_le_div_of_nonneg_right (abs_nearestUnits_sub_le_abs_sub hden hv.2) hunit.le
      _ ≤ |(finite t v hv).value - signed negative (num / den / unitsPerOne)| :=
          le_abs_value_sub t negative hv hquot
  · intro y hy hne htie
    obtain ⟨t, v, hv, rfl⟩ := exists_of_isFinite hy
    rw [abs_value_sub] at htie
    have hge := le_abs_value_sub t negative hv hquot
    rw [htie, div_le_div_iff_of_pos_right hunit] at hge
    rw [toBits_mod_two]
    rcases eq_or_ne v (nearestUnits num den) with rfl | hvne
    · -- only the signs differ, so both are zero
      have hzero : nearestUnits num den = 0 ∨ (0 : ℝ) < num / den := by
        rcases Nat.eq_zero_or_pos num with rfl | hnum
        · exact .inl ((nearestUnits_eq_zero_iff hden).2 (Nat.zero_le _))
        · exact .inr (div_pos (Nat.cast_pos.2 hnum) (Nat.cast_pos.2 hden))
      exact absurd (value_eq_of_abs_eq hzero htie) hne
    · exact lastBit_nearestUnits_of_tie hden hv.2 hvne
        (le_antisymm hge (abs_nearestUnits_sub_le_abs_sub hden hv.2))

/-! ### There is only one -/

theorem value_neg (x : Binary64) : x.neg.value = -x.value := by
  cases x with
  | nan => exact neg_zero.symm
  | infinite s => exact neg_zero.symm
  | finite s u hu => rw [neg, value_finite, value_finite, signed_not]

theorem isFinite_neg (x : Binary64) : x.neg.isFinite = x.isFinite := by
  cases x <;> rfl

theorem neg_involutive : Function.Involutive neg := by
  intro x
  cases x <;> simp [neg]

theorem IsNearest.neg {x : Binary64} {q : ℝ} (h : x.IsNearest q) : x.neg.IsNearest (-q) := by
  -- distances to the negated number are distances of the negated candidates
  have hdist : ∀ y : Binary64, |y.value - -q| = |y.neg.value - q| := by
    intro y
    rw [value_neg, ← abs_neg]
    congr 1
    ring
  refine ⟨by rw [isFinite_neg, h.isFinite], by rw [abs_neg]; exact h.inRange, ?_, ?_⟩
  · intro y hy
    rw [hdist, hdist, neg_involutive]
    exact h.le y.neg (by rw [isFinite_neg, hy])
  · intro y hy hne htie
    rw [hdist, hdist, neg_involutive] at htie
    have hne' : y.neg.value ≠ x.value := by
      intro heq
      apply hne
      rw [value_neg x, ← heq, value_neg, neg_neg]
    have heven := h.even_of_tie y.neg (by rw [isFinite_neg, hy]) hne' htie
    obtain ⟨s, u, hu, rfl⟩ := exists_of_isFinite h.isFinite
    rw [Binary64.neg, toBits_mod_two]
    rwa [toBits_mod_two] at heven

theorem value_eq_of_nonneg {negative : Bool} {u : ℕ} {hu : Representable u}
    (h : 0 ≤ (finite negative u hu).value) : (finite negative u hu).value = u / unitsPerOne := by
  have hdiv : (0 : ℝ) ≤ u / unitsPerOne := div_nonneg (Nat.cast_nonneg _) (Nat.cast_nonneg _)
  rw [value_finite] at h ⊢
  cases negative with
  | false => rfl
  | true =>
    rw [signed, if_pos rfl] at h ⊢
    linarith

/-- Between two numbers that are equally near, every number is nearer. -/
theorem abs_sub_lt_of_between {a b c q : ℝ} (hac : a < c) (hcb : c < b) (h : |b - q| = |a - q|) :
    |c - q| < |a - q| := by
  rcases abs_eq_abs.1 h with heq | heq
  · linarith
  · rw [abs_of_neg (show a - q < 0 by linarith), abs_lt]
    constructor <;> linarith

section

variable {x y : Binary64} {q : ℝ}

theorem IsNearest.abs_sub_eq (hx : x.IsNearest q) (hy : y.IsNearest q) :
    |y.value - q| = |x.value - q| :=
  le_antisymm (hy.le x hx.isFinite) (hx.le y hy.isFinite)

/-- Of two different nearest numbers both would end in a zero, but they are neighbours. -/
theorem IsNearest.not_lt (hx : x.IsNearest q) (hy : y.IsNearest q) (h0 : 0 ≤ x.value) :
    ¬ x.value < y.value := by
  intro hlt
  have hunit : (0 : ℝ) < unitsPerOne := Nat.cast_pos.2 unitsPerOne_pos
  have htie := hx.abs_sub_eq hy
  have hxeven := hx.even_of_tie y hy.isFinite hlt.ne' htie
  have hyeven := hy.even_of_tie x hx.isFinite hlt.ne htie.symm
  obtain ⟨s, u, hu, rfl⟩ := exists_of_isFinite hx.isFinite
  obtain ⟨t, v, hv, rfl⟩ := exists_of_isFinite hy.isFinite
  rw [toBits_mod_two] at hxeven hyeven
  have hxv := value_eq_of_nonneg h0
  have hyv := value_eq_of_nonneg (h0.trans hlt.le)
  have huv : u < v := by rwa [hxv, hyv, div_lt_div_iff_of_pos_right hunit, Nat.cast_lt] at hlt
  -- two even last bits belong to no neighbours, so a magnitude lies between them, and it is nearer
  apply lastBit_ne_of_neighbours hu.2 hv.2 huv _ (hxeven.trans hyeven.symm)
  intro w hw huw
  by_contra hwv
  rw [Nat.not_le] at hwv
  have hrep : Representable w := ⟨hwv.trans hv.1, hw⟩
  have hwvalue : (finite false w hrep).value = w / unitsPerOne := value_finite false hrep
  apply (hx.le (finite false w hrep) rfl).not_gt
  apply abs_sub_lt_of_between _ _ htie
  · rwa [hxv, hwvalue, div_lt_div_iff_of_pos_right hunit, Nat.cast_lt]
  · rwa [hyv, hwvalue, div_lt_div_iff_of_pos_right hunit, Nat.cast_lt]

/-- Of two numbers nearest to `q` neither lies below the other, on whichever side of zero they are. -/
theorem IsNearest.value_le (hx : x.IsNearest q) (hy : y.IsNearest q) : y.value ≤ x.value := by
  by_contra hlt
  rw [not_le] at hlt
  rcases le_or_gt 0 x.value with h0 | hneg
  · exact hx.not_lt hy h0 hlt
  · rcases le_or_gt y.value 0 with hle | hpos
    · apply hy.neg.not_lt hx.neg
      · rw [value_neg]
        linarith
      · rw [value_neg, value_neg]
        linarith
    · -- zero lies between the two
      have hzero : zero.value = 0 := value_signedZero false
      apply (hx.le zero rfl).not_gt
      apply abs_sub_lt_of_between _ _ (hx.abs_sub_eq hy) <;> rwa [hzero]

/-- The number nearest to `q` is unique up to the sign of zero. -/
theorem IsNearest.unique (hx : x.IsNearest q) (hy : y.IsNearest q)
    (hsign : x.isNegative = y.isNegative) : x = y := by
  have hvalue := le_antisymm (hy.value_le hx) (hx.value_le hy)
  obtain ⟨s, u, hu, rfl⟩ := exists_of_isFinite hx.isFinite
  obtain ⟨t, v, hv, rfl⟩ := exists_of_isFinite hy.isFinite
  obtain rfl : s = t := hsign
  have hdiv : (u : ℝ) / unitsPerOne = v / unitsPerOne := by
    rw [value_finite, value_finite] at hvalue
    cases s with
    | false => exact hvalue
    | true => exact neg_injective hvalue
  obtain rfl : u = v := by
    rwa [div_left_inj' (Nat.cast_ne_zero.2 unitsPerOne_pos.ne'), Nat.cast_inj] at hdiv
  rfl

end

/-! ### Rounding with overflow -/

/-- What a number with a sign and the magnitude `q` is rounded to. -/
inductive IsRounded (negative : Bool) (q : ℝ) : Binary64 → Prop
  | finite {x : Binary64} (hx : x.IsNearest (signed negative q)) (hsign : x.isNegative = negative) :
    IsRounded negative q x
  | infinite (h : 2 ^ 1024 - 2 ^ 970 ≤ q) : IsRounded negative q (.infinite negative)

/-- Rounding keeps the sign, also of a zero and of an overflow. -/
theorem isNegative_ofQuotient (negative : Bool) (num den : ℕ) :
    (ofQuotient negative num den).isNegative = negative := by
  rw [ofQuotient]
  split <;> rfl

/-- The rounding of the library is correct, overflow included. -/
theorem isRounded_ofQuotient (negative : Bool) (num : ℕ) {den : ℕ} (hden : 0 < den) :
    IsRounded negative (num / den / unitsPerOne) (ofQuotient negative num den) := by
  by_cases hfin : nearestUnits num den < overflowUnits
  · exact .finite (isNearest_ofQuotient negative hden hfin) (isNegative_ofQuotient ..)
  · rw [ofQuotient_of_not_lt negative hfin]
    rw [← quotient_lt_rangeEnd_iff hden, not_lt] at hfin
    exact .infinite hfin

/-- There is only one correct way to round. -/
theorem IsRounded.unique {negative : Bool} {q : ℝ} {x y : Binary64} (h0 : 0 ≤ q)
    (hx : IsRounded negative q x) (hy : IsRounded negative q y) : x = y := by
  have hrange : ∀ {z : Binary64}, z.IsNearest (signed negative q) → ¬ 2 ^ 1024 - 2 ^ 970 ≤ q := by
    intro z hz
    rw [← abs_signed h0 negative]
    exact hz.inRange.not_ge
  cases hx with
  | finite hx hsign =>
    cases hy with
    | finite hy hsign' => exact hx.unique hy (hsign.trans hsign'.symm)
    | infinite h => exact absurd h (hrange hx)
  | infinite h =>
    cases hy with
    | finite hy _ => exact absurd h (hrange hy)
    | infinite _ => rfl

end EditList.Binary64
