import EditList.Binary64.Basic
import EditList.Proofs.Binary64.Rounding
import Mathlib.Data.Real.Basic

/-!
# Exact values and exact operations

`Binary64.value` is the real number that a finite binary64 number stands for.  For numbers without a
sign the order is the order of the magnitudes (`IsOffset.lt_iff`), and an operation whose exact result the
format can hold returns that result (`ofQuotient_of_representable`).

Sums may be rounded.  `nearestUnits_lt_overflowUnits_iff` says where numbers overflow, and
`nearestUnits_add_lt_overflowUnits` is the one place where overflow is excluded: adding less than half a
step of the largest grid to a finite magnitude gives a finite magnitude.
-/

namespace EditList

/-! ### Representable magnitudes -/

theorem representable_mul_twoPow {m e : ℕ} (hm : m < twoPow 53) (he : e ≤ 2045) :
    Representable (m * twoPow e) := by
  refine ⟨?_, m, e, hm, rfl⟩
  calc m * twoPow e < twoPow 53 * twoPow e := Nat.mul_lt_mul_of_pos_right hm (twoPow_pos e)
    _ = twoPow (53 + e) := (twoPow_add 53 e).symm
    _ ≤ overflowUnits := twoPow_le_twoPow (by rw [magnitudeBits]; omega)

theorem representable_natCast {n : ℕ} (hn : n < twoPow 53) : Representable (n * unitsPerOne) :=
  representable_mul_twoPow hn (by decide)

/-- What can be represented is rounded to itself. -/
theorem Representable.nearestUnits_eq {u : ℕ} (hu : Representable u) {den : ℕ} (hden : 0 < den) :
    nearestUnits (u * den) den = u := by
  obtain ⟨-, m, e, hm, rfl⟩ := hu
  exact nearestUnits_mul e hden hm

/-- What a quotient is rounded to can be represented, unless it overflows. -/
theorem representable_nearestUnits {num den : ℕ} (h : nearestUnits num den < overflowUnits) :
    Representable (nearestUnits num den) :=
  ⟨h, nearestUnits_eq_mul_twoPow num den⟩

/-- Nothing representable lies between the largest number and the overflow. -/
theorem Representable.le_largest {u : ℕ} (hu : Representable u) :
    u ≤ (twoPow 53 - 1) * twoPow 2045 := by
  obtain ⟨hlt, m, e, hm, rfl⟩ := hu
  have hover : overflowUnits = twoPow 53 * twoPow 2045 := twoPow_add 53 2045
  rw [hover] at hlt
  rcases Nat.lt_or_ge e 2045 with he | he
  · -- a finer grid: the number is below `2 ^ 2097`
    calc m * twoPow e ≤ twoPow 53 * twoPow 2044 :=
          Nat.mul_le_mul hm.le (twoPow_le_twoPow (Nat.le_of_lt_succ he))
      _ = twoPow 52 * twoPow 2045 := by rw [twoPow_succ 52, twoPow_succ 2044]; ring
      _ ≤ (twoPow 53 - 1) * twoPow 2045 := Nat.mul_le_mul_right _ (by decide)
  · -- a multiple of the step below the overflow
    rw [← twoPow_sub_mul he, ← Nat.mul_assoc] at hlt ⊢
    have hk : m * twoPow (e - 2045) < twoPow 53 := Nat.lt_of_mul_lt_mul_right hlt
    exact Nat.mul_le_mul_right _ (by omega)

/-- A quotient is rounded to a finite magnitude when it lies below the middle of the largest one and the
overflow; the middle itself overflows, since the last bit of the largest one is set. -/
theorem nearestUnits_lt_overflowUnits_iff {num den : ℕ} (hden : 0 < den) :
    nearestUnits num den < overflowUnits ↔ num < (twoPow 54 - 1) * twoPow 2044 * den := by
  have hover : overflowUnits = twoPow 53 * twoPow 2045 := twoPow_add 53 2045
  have hdouble : twoPow 2045 = 2 * twoPow 2044 := twoPow_succ 2044
  have hmiddle : (2 * (twoPow 53 - 1) + 1) * (den * twoPow 2045) =
      2 * ((twoPow 54 - 1) * twoPow 2044 * den) := by
    have h54 : 2 * (twoPow 53 - 1) + 1 = twoPow 54 - 1 := rfl
    rw [h54, hdouble]
    ring
  rcases Nat.lt_trichotomy (num / den).log2 2097 with hlog | hlog | hlog
  · -- even the next power of two is finite
    have hfin : nearestUnits num den < overflowUnits :=
      calc nearestUnits num den ≤ twoPow ((num / den).log2 + 1) := nearestUnits_le_twoPow num hden
        _ ≤ twoPow 2097 := twoPow_le_twoPow hlog
        _ < overflowUnits := twoPow_lt_twoPow (by decide)
    have hlt : num < (twoPow 54 - 1) * twoPow 2044 * den :=
      calc num < twoPow ((num / den).log2 + 1) * den :=
            (Nat.div_lt_iff_lt_mul hden).1 Nat.lt_log2_self
        _ ≤ twoPow (53 + 2044) * den := Nat.mul_le_mul_right den (twoPow_le_twoPow hlog)
        _ ≤ (twoPow 54 - 1) * twoPow 2044 * den := by
            rw [twoPow_add]
            exact Nat.mul_le_mul_right den (Nat.mul_le_mul_right _ (by decide))
    exact iff_of_true hfin hlt
  · -- the largest grid
    have hs : surplusBits (num / den) = 2045 := by rw [surplusBits, hlog]
    have hround := @roundDiv_toEven_le_iff (twoPow 53 - 1) num (den * twoPow 2045)
      (Nat.mul_pos hden (twoPow_pos 2045))
    have hodd : ¬ (twoPow 53 - 1) % 2 = 0 := by decide
    have h53 : 0 < twoPow 53 := twoPow_pos 53
    rw [hmiddle] at hround
    rw [nearestUnits, hs, hover, Nat.mul_lt_mul_right (twoPow_pos 2045)]
    omega
  · -- the power of two below the quotient overflows
    have hle : overflowUnits ≤ twoPow (num / den).log2 := twoPow_le_twoPow hlog
    have hne : num / den ≠ 0 := by
      intro h0
      rw [h0] at hlog
      simp at hlog
    have hge : (twoPow 54 - 1) * twoPow 2044 * den ≤ num :=
      calc (twoPow 54 - 1) * twoPow 2044 * den ≤ twoPow (54 + 2044) * den := by
            rw [twoPow_add]
            exact Nat.mul_le_mul_right den (Nat.mul_le_mul_right _ (Nat.sub_le _ _))
        _ ≤ num := (Nat.le_div_iff_mul_le hden).1 (hle.trans (Nat.log2_self_le hne))
    exact iff_of_false (hle.trans (twoPow_le_nearestUnits hden hne)).not_gt hge.not_gt

/-- Adding less than half a step of the largest numbers does not overflow. -/
theorem nearestUnits_add_lt_overflowUnits {w u : ℕ} (hu : Representable u) (hw : w < twoPow 2044) :
    nearestUnits (w + u) 1 < overflowUnits := by
  have hmax := hu.le_largest
  have hdouble : twoPow 2045 = 2 * twoPow 2044 := twoPow_succ 2044
  have hsucc : (twoPow 54 - 1) * twoPow 2044 * 1 = twoPow 2044 + (twoPow 53 - 1) * twoPow 2045 := by
    have h54 : twoPow 54 - 1 = 1 + (twoPow 53 - 1) * 2 := rfl
    rw [h54, hdouble]
    ring
  rw [nearestUnits_lt_overflowUnits_iff Nat.one_pos, hsucc]
  omega

namespace Binary64

/-! ### Magnitude and value -/

/-- The magnitude of a finite number, in units. -/
def magnitude : Binary64 → ℕ
  | .finite _ u _ => u
  | _ => 0

/-- The real number that a finite number stands for. -/
noncomputable def value : Binary64 → ℝ
  | .finite negative u _ => (if negative then -1 else 1) * (u / unitsPerOne)
  | _ => 0

/-- Whether a number is finite and carries no sign. -/
def IsOffset (x : Binary64) : Prop :=
  ∃ u h, x = .finite false u h

theorem IsOffset.value_eq {x : Binary64} (hx : x.IsOffset) :
    x.value = (x.magnitude : ℝ) / unitsPerOne := by
  obtain ⟨u, h, rfl⟩ := hx
  show (if false = true then -1 else 1) * ((u : ℝ) / unitsPerOne) = (u : ℝ) / unitsPerOne
  rw [if_neg Bool.false_ne_true, one_mul]

/-- Numbers without a sign are ordered by their magnitudes. -/
theorem IsOffset.lt_iff {x y : Binary64} (hx : x.IsOffset) (hy : y.IsOffset) :
    x.lt y = true ↔ x.magnitude < y.magnitude := by
  obtain ⟨u, hu, rfl⟩ := hx
  obtain ⟨v, hv, rfl⟩ := hy
  simp [lt, rank?, magnitude]

/-! ### Exact results -/

theorem ofQuotient_of_lt (negative : Bool) {num den : ℕ} (h : nearestUnits num den < overflowUnits) :
    ofQuotient negative num den =
      .finite negative (nearestUnits num den) (representable_nearestUnits h) := by
  rw [ofQuotient, dif_pos h]

theorem ofQuotient_of_not_lt (negative : Bool) {num den : ℕ}
    (h : ¬ nearestUnits num den < overflowUnits) :
    ofQuotient negative num den = .infinite negative := by
  rw [ofQuotient, dif_neg h]

theorem eq_of_ofQuotient_eq_finite {negative s : Bool} {num den u : ℕ} {hu : Representable u}
    (h : ofQuotient negative num den = .finite s u hu) : s = negative ∧ u = nearestUnits num den := by
  by_cases hlt : nearestUnits num den < overflowUnits
  · rw [ofQuotient_of_lt negative hlt] at h
    obtain ⟨rfl, rfl⟩ := finite.inj h
    exact ⟨rfl, rfl⟩
  · rw [ofQuotient_of_not_lt negative hlt] at h
    cases h

theorem ofQuotient_of_representable (negative : Bool) {u den : ℕ} (hu : Representable u)
    (hden : 0 < den) : ofQuotient negative (u * den) den = .finite negative u hu := by
  have h := hu.nearestUnits_eq hden
  have hlt : nearestUnits (u * den) den < overflowUnits := h.trans_lt hu.1
  rw [ofQuotient_of_lt negative hlt]
  congr 1

theorem ofQuotient_one_of_representable (negative : Bool) {u : ℕ} (hu : Representable u) :
    ofQuotient negative u 1 = .finite negative u hu := by
  have h := ofQuotient_of_representable negative hu Nat.one_pos
  rwa [Nat.mul_one] at h

theorem ofNat_eq_finite {n : ℕ} (hn : n < twoPow 53) :
    ofNat n = .finite false (n * unitsPerOne) (representable_natCast hn) :=
  ofQuotient_one_of_representable false (representable_natCast hn)

theorem add_def (x y : Binary64) : x + y = add x y := rfl

theorem mul_def (x y : Binary64) : x * y = mul x y := rfl

theorem sub_def (x y : Binary64) : x - y = add x (neg y) := rfl

/-- A product of whole numbers is exact if it stays below `2 ^ 53`. -/
theorem ofNat_mul_ofNat {a b : ℕ} (ha : a < twoPow 53) (hb : b < twoPow 53)
    (hab : a * b < twoPow 53) : ofNat a * ofNat b = ofNat (a * b) := by
  have hprod : a * unitsPerOne * (b * unitsPerOne) = a * b * unitsPerOne * unitsPerOne := by ring
  rw [ofNat_eq_finite ha, ofNat_eq_finite hb, ofNat_eq_finite hab, mul_def, mul, hprod]
  exact ofQuotient_of_representable false (representable_natCast hab) unitsPerOne_pos

/-- A sum of whole numbers is exact if it stays below `2 ^ 53`. -/
theorem ofNat_add_ofNat {a b : ℕ} (ha : a < twoPow 53) (hb : b < twoPow 53)
    (hab : a + b < twoPow 53) : ofNat a + ofNat b = ofNat (a + b) := by
  rw [ofNat_eq_finite ha, ofNat_eq_finite hb, ofNat_eq_finite hab, add_def, add, if_pos rfl,
    ← Nat.add_mul]
  exact ofQuotient_one_of_representable false (representable_natCast hab)

/-- Adding a number that is not below zero to one without a sign: the exact sum, rounded.  The
negative zero counts as zero. -/
theorem finite_add_finite {w u : ℕ} (hw : Representable w) (negative : Bool) (hu : Representable u)
    (hneg : negative = true → u = 0) :
    (.finite false w hw : Binary64) + .finite negative u hu = ofQuotient false (w + u) 1 := by
  rw [add_def, add]
  cases negative with
  | false => rw [if_pos rfl]
  | true =>
    obtain rfl := hneg rfl
    rw [Nat.add_zero, ofQuotient_one_of_representable false hw, if_neg Bool.false_ne_true]
    -- of zeros with different signs the sum is the positive one
    rcases Nat.eq_zero_or_pos w with rfl | hpos
    · rw [if_pos rfl, zero, signedZero]
    · rw [if_neg hpos.ne', if_pos hpos, Nat.sub_zero,
        ofQuotient_one_of_representable false hw]

/-- The difference of two numbers that do not run backwards is the exact one, rounded; it has no sign
and does not overflow. -/
theorem IsOffset.sub {x y : Binary64} (hx : x.IsOffset) (hy : y.IsOffset)
    (hle : x.magnitude ≤ y.magnitude) :
    (y - x).IsOffset ∧ (y - x).magnitude = nearestUnits (y.magnitude - x.magnitude) 1 := by
  obtain ⟨u, hu, rfl⟩ := hx
  obtain ⟨v, hv, rfl⟩ := hy
  have huv : u ≤ v := hle
  have hfin : nearestUnits (v - u) 1 < overflowUnits := by
    have hself : nearestUnits v 1 = v := by simpa using hv.nearestUnits_eq Nat.one_pos
    calc nearestUnits (v - u) 1 ≤ nearestUnits v 1 := nearestUnits_mono Nat.one_pos (Nat.sub_le v u)
      _ < overflowUnits := hself.trans_lt hv.1
  rw [sub_def, neg, add, Bool.not_false, if_neg Bool.false_ne_true]
  show _ ∧ _ = nearestUnits (v - u) 1
  rcases Nat.eq_or_lt_of_le huv with heq | hlt
  · -- nothing is left, and the zero is the positive one
    rw [if_pos heq.symm, heq, Nat.sub_self, zero, signedZero]
    exact ⟨⟨0, _, rfl⟩, (representable_zero.nearestUnits_eq Nat.one_pos).symm⟩
  · rw [if_neg hlt.ne', if_pos hlt, ofQuotient_of_lt false hfin]
    exact ⟨⟨_, _, rfl⟩, rfl⟩

end Binary64

end EditList
