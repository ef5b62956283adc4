import EditList.Proofs.Decimal.Grammar
import EditList.Proofs.Hundredths

/-!
# Two decimal places are stable

A number is written with two decimal places, and what is written is read as the number nearest to it.
Written again, that number gives the same text.

* `hundredths_nearestUnits`: the statement for magnitudes.  Below `2 ^ 46` the numbers lie so close together
  that reading moves a number of hundredths by less than half a hundredth.  From there on they lie so far
  apart that the number itself is read back.
* `hundredths_leftpad`: the text is a numeral of the grammar, with the hundredths as its value.
* `exists_literal_twoPlacesWide`: both together, for a number with its sign.
-/

namespace EditList.Binary64

/-! ### Rounding there and back -/

theorem hundredths_mul_unitsPerOne (n : ℕ) : hundredths (n * unitsPerOne) = 100 * n := by
  rw [hundredths, Nat.mul_right_comm, Nat.mul_comm n]
  exact roundDiv_mul .toEven _ unitsPerOne_pos

/-- What lies less than half a hundredth from `k` hundredths shows as `k`. -/
theorem hundredths_eq_of_near {u k : ℕ} (hbelow : 2 * (u * 100) < 2 * (k * unitsPerOne) + unitsPerOne)
    (habove : 2 * (k * unitsPerOne) < 2 * (u * 100) + unitsPerOne) : hundredths u = k := by
  have hiff := fun j => hundredths_le_iff u j
  have hmiddle : ∀ j, (2 * j + 1) * unitsPerOne = 2 * (j * unitsPerOne) + unitsPerOne := by
    intro j
    ring
  apply Nat.le_antisymm
  · rw [hiff, hmiddle]
    exact .inl hbelow
  · cases k with
    | zero => exact Nat.zero_le _
    | succ j =>
      rw [Nat.succ_le_iff, ← Nat.not_le, hiff, hmiddle]
      have hsucc : (j + 1) * unitsPerOne = j * unitsPerOne + unitsPerOne := Nat.succ_mul j unitsPerOne
      omega

/-- Below `2 ^ 46` the grid is fine enough: hundredths survive being rounded to a magnitude and
back. -/
theorem hundredths_nearestUnits_of_lt {k : ℕ} (h : k < 100 * twoPow 46) :
    nearestUnits (k * unitsPerOne) 100 < overflowUnits ∧
      hundredths (nearestUnits (k * unitsPerOne) 100) = k := by
  have hnum : k * unitsPerOne < twoPow (1066 + 54) * 100 :=
    calc k * unitsPerOne < 100 * twoPow 46 * unitsPerOne :=
          Nat.mul_lt_mul_of_pos_right h unitsPerOne_pos
      _ = twoPow (1066 + 54) * 100 := by
          rw [twoPow_eq_mul (show 1066 + 54 = 46 + 1074 from rfl), unitsPerOne, unitBits]
          ring
  have hunit : unitsPerOne = 256 * twoPow 1066 := by
    have h8 : twoPow 8 = 256 := rfl
    rw [unitsPerOne, unitBits, twoPow_eq_mul (show 1074 = 8 + 1066 from rfl), h8]
  have hpos := twoPow_pos 1066
  -- reading moves the number by at most a 256th
  obtain ⟨hle, hge⟩ := nearestUnits_error (by decide) hnum
  constructor
  · rw [nearestUnits_lt_overflowUnits_iff (by decide)]
    calc k * unitsPerOne < twoPow (1066 + 54) * 100 := hnum
      _ ≤ (twoPow 54 - 1) * twoPow 2044 * 100 := by
          apply Nat.mul_le_mul_right
          rw [← Nat.one_mul (twoPow (1066 + 54))]
          exact Nat.mul_le_mul (by decide) (twoPow_le_twoPow (by decide))
  · apply hundredths_eq_of_near <;> omega

/-- Rounding to hundredths moves a magnitude by at most half a hundredth. -/
theorem abs_sub_hundredths_le (u : ℕ) :
    |(u : ℝ) - (hundredths u * unitsPerOne : ℕ) / (100 : ℕ)| * 200 ≤ unitsPerOne := by
  have hle := two_mul_roundDiv_le .toEven (u * 100) unitsPerOne
  have hge := two_mul_le_roundDiv .toEven (u * 100) unitsPerOne_pos
  rw [← hundredths] at hle hge
  generalize hundredths u * unitsPerOne = shown at hle hge ⊢
  have hle' : (2 * shown : ℝ) ≤ 2 * (u * 100) + unitsPerOne := by exact_mod_cast hle
  have hge' : (2 * (u * 100) : ℝ) ≤ 2 * shown + unitsPerOne := by exact_mod_cast hge
  rw [← le_div_iff₀ (by norm_num), abs_sub_le_iff]
  push_cast
  constructor <;> linarith

/-- Two multiples of a step that lie less than half a step from a point are one. -/
theorem mul_eq_mul_of_near {i j step : ℕ} {q : ℝ} (hi : |((i * step : ℕ) : ℝ) - q| * 2 < step)
    (hj : |((j * step : ℕ) : ℝ) - q| * 2 < step) : i * step = j * step := by
  have hpos : (0 : ℝ) < step := (mul_nonneg (abs_nonneg _) zero_le_two).trans_lt hi
  have htriangle := abs_sub_le ((i * step : ℕ) : ℝ) q (j * step : ℕ)
  rw [abs_sub_comm q] at htriangle
  have hlt : |((i : ℝ) - j) * step| < 1 * step := by
    rw [sub_mul]
    push_cast at htriangle hi hj
    linarith
  rw [abs_mul, abs_of_pos hpos, mul_lt_mul_iff_left₀ hpos] at hlt
  have hint : |(i : ℤ) - j| < 1 := by exact_mod_cast hlt
  rw [Int.abs_lt_one_iff] at hint
  rw [show i = j by omega]

/-- From `2 ^ 46` on all magnitudes are multiples of a sixty-fourth. -/
theorem exists_mul_of_large {v : ℕ} (hv : HasShortSignificand v) (hlarge : twoPow 46 * unitsPerOne ≤ v) :
    ∃ j, v = j * twoPow 1068 := by
  have hfirst : twoPow 52 * twoPow 1068 = twoPow 46 * unitsPerOne := by
    rw [unitsPerOne, unitBits, ← twoPow_add, ← twoPow_add]
  rcases hv.lt_or_multiple 1068 with hlt | hmultiple
  · omega
  · exact hmultiple

/-- From `2 ^ 46` on a number of hundredths is rounded to a magnitude from there on. -/
theorem le_nearestUnits_of_hundredths {k : ℕ} (h : 100 * twoPow 46 ≤ k) :
    twoPow 46 * unitsPerOne ≤ nearestUnits (k * unitsPerOne) 100 := by
  have hle : twoPow 46 * unitsPerOne * 100 ≤ k * unitsPerOne :=
    calc twoPow 46 * unitsPerOne * 100 = 100 * twoPow 46 * unitsPerOne := by ring
      _ ≤ k * unitsPerOne := Nat.mul_le_mul_right _ h
  rw [unitsPerOne] at hle ⊢
  exact le_nearestUnits (by decide) (by decide) hle

/-- No other magnitude is as near to the hundredths of `u`, so `u` is read back. -/
theorem nearestUnits_hundredths {u : ℕ} (hu : Representable u) (hlarge : twoPow 46 * unitsPerOne ≤ u) :
    nearestUnits (hundredths u * unitsPerOne) 100 = u := by
  have hshown := abs_sub_hundredths_le u
  have hnear := @abs_nearestUnits_sub_le_abs_sub (hundredths u * unitsPerOne) 100 u (by decide) hu.2
  have hk := hundredths_mono hlarge
  rw [hundredths_mul_unitsPerOne] at hk
  obtain ⟨i, hi⟩ := exists_mul_of_large hu.2 hlarge
  obtain ⟨j, hj⟩ := exists_mul_of_large (nearestUnits_eq_mul_twoPow _ _)
    (le_nearestUnits_of_hundredths hk)
  have hunit : (unitsPerOne : ℝ) = 64 * twoPow 1068 := by
    have h6 : twoPow 6 = 64 := rfl
    rw [unitsPerOne, unitBits, twoPow_eq_mul (show 1074 = 6 + 1068 from rfl), h6, Nat.cast_mul]
    rfl
  have hstep : (0 : ℝ) < twoPow 1068 := Nat.cast_pos.2 (twoPow_pos 1068)
  rw [hunit] at hshown
  -- half a hundredth is less than half a step, so both are the one multiple that is so near
  rw [hj, hi]
  apply mul_eq_mul_of_near
  · rw [← hj]
    linarith
  · rw [← hi]
    linarith

/-- Whatever can be represented keeps its hundredths when they are printed and read again. -/
theorem hundredths_nearestUnits {u : ℕ} (hu : Representable u) :
    nearestUnits (hundredths u * unitsPerOne) 100 < overflowUnits ∧
      hundredths (nearestUnits (hundredths u * unitsPerOne) 100) = hundredths u := by
  rcases Nat.lt_or_ge u (twoPow 46 * unitsPerOne) with hsmall | hlarge
  · have hle : hundredths u ≤ 100 * twoPow 46 := by
      rw [← hundredths_mul_unitsPerOne]
      exact hundredths_mono hsmall.le
    rcases Nat.lt_or_eq_of_le hle with hlt | heq
    · exact hundredths_nearestUnits_of_lt hlt
    · -- rounded up to `2 ^ 46`, which is a number itself
      have hfirst : Representable (twoPow 46 * unitsPerOne) := representable_natCast (by decide)
      rw [heq, ← hundredths_mul_unitsPerOne, nearestUnits_hundredths hfirst le_rfl]
      exact ⟨hfirst.1, rfl⟩
  · rw [nearestUnits_hundredths hu hlarge]
    exact ⟨hu.1, rfl⟩

/-! ### Distance from the exact value -/

/-- The printed hundredths are the nearest ones, of two the even. -/
theorem isNearestWhole_hundredths (u : ℕ) : IsNearestWhole (100 * (u / unitsPerOne)) (hundredths u) := by
  have hround := isNearestWhole_roundDiv (u * 100) unitsPerOne_pos
  rwa [Nat.cast_mul, mul_comm (u : ℝ), mul_div_assoc] at hround

end EditList.Binary64

namespace EditList.Decimal

/-! ### The text -/

/-- A numeral with two decimal places and at least `least` digits before the point, and how many
hundredths it is. -/
inductive Hundredths (least : ℕ) : List Char → ℕ → Prop
  | mk {digits fraction : List Char} (hrun : IsDigitRun digits) (hleast : least ≤ digits.length)
    (hfraction : IsDigitRun fraction) (htwo : fraction.length = 2) :
    Hundredths least (digits ++ '.' :: fraction) (valueOf (digits ++ fraction))

theorem Hundredths.numeral {least k : ℕ} {cs : List Char} (h : Hundredths least cs k) :
    Numeral cs ⟨k, -2⟩ := by
  obtain ⟨hrun, -, hfraction, htwo⟩ := h
  have hne := List.ne_nil_of_length_pos (htwo ▸ Nat.zero_lt_two)
  have hnumeral :=
    Numeral.mk (.point hrun hfraction (List.append_ne_nil_of_right_ne_nil _ hne)) .absent
  rw [List.append_nil, htwo] at hnumeral
  exact hnumeral

/-- Padding with zeros gives a numeral with as many digits before the point as asked for. -/
theorem hundredths_leftpad (width k : ℕ) :
    Hundredths (width - 3) ((Binary64.hundredthsText k).leftpad width '0') k := by
  have hfraction : IsDigitRun [Nat.digitChar (k % 100 / 10), Nat.digitChar (k % 10)] := by
    have htens : k % 100 / 10 < 10 := by omega
    have hones : k % 10 < 10 := by omega
    simpa [IsDigitRun] using ⟨htens, hones⟩
  have hlength : (Binary64.hundredthsText k).length = (Nat.toDigits 10 (k / 100)).length + 3 :=
    List.length_append
  obtain ⟨zeros, hzeros⟩ : ∃ zeros, width - (Binary64.hundredthsText k).length = zeros := ⟨_, rfl⟩
  have hrun := isDigitRun_append.2 ⟨isDigitRun_replicate zeros, isDigitRun_toDigits (k / 100)⟩
  have hleast : width - 3 ≤ (List.replicate zeros '0' ++ Nat.toDigits 10 (k / 100)).length := by
    rw [List.length_append, List.length_replicate]
    omega
  have htext := Hundredths.mk hrun hleast hfraction rfl
  rwa [List.append_assoc, ← Binary64.hundredthsText, List.append_assoc, valueOf_replicate_append,
    Binary64.valueOf_toDigits_append, ← hzeros] at htext

/-! ### Reading the text -/

theorem ofDecimal_hundredths (negative : Bool) (k : ℕ) :
    Binary64.ofDecimal negative ⟨k, -2⟩ = Binary64.ofQuotient negative (k * unitsPerOne) 100 := by
  have hnum : (⟨k, -2⟩ : Decimal).unitsNum = k * unitsPerOne :=
    congrArg (· * unitsPerOne) (Nat.mul_one k)
  have hden : (⟨k, -2⟩ : Decimal).unitsDen = 100 := rfl
  rw [Binary64.ofDecimal_eq_ofQuotient, hnum, hden]

/-- The characters of a number with its sign and two decimal places. -/
theorem toList_twoPlacesWide (width : ℕ) (negative : Bool) {u : ℕ} (hu : Representable u) :
    ((Binary64.finite negative u hu).twoPlacesWide width).toList =
      (if negative then ['-'] else []) ++
        (Binary64.hundredthsText (Binary64.hundredths u)).leftpad
          (width - (if negative then ['-'] else []).length) '0' :=
  String.toList_ofList

/-- What is written for a number is a literal of a number for which the same is written. -/
theorem exists_literal_twoPlacesWide (width : ℕ) (negative : Bool) {u : ℕ} (hu : Representable u) :
    ∃ v, ∃ hv : Representable v,
      Literal ((Binary64.finite negative u hu).twoPlacesWide width).toList (.finite negative v hv) ∧
      (Binary64.finite negative v hv).IsNearest
        (Binary64.signed negative (Binary64.hundredths u / 100)) ∧
      Binary64.hundredths v = Binary64.hundredths u := by
  obtain ⟨hfin, hstable⟩ := Binary64.hundredths_nearestUnits hu
  have hround := isRounded_ofDecimal negative ⟨Binary64.hundredths u, -2⟩
  have hnumeral := (hundredths_leftpad (width - (if negative then ['-'] else []).length)
    (Binary64.hundredths u)).numeral
  refine ⟨_, representable_nearestUnits hfin, ?_, ?_, hstable⟩
  · rw [toList_twoPlacesWide, ← Binary64.ofQuotient_of_lt negative hfin, ← ofDecimal_hundredths]
    exact .numeral (sign_minus negative) hnumeral hround
  · have hnear := Binary64.isNearest_ofQuotient negative (by decide) hfin
    have hunit : (unitsPerOne : ℝ) ≠ 0 := Nat.cast_ne_zero.2 unitsPerOne_pos.ne'
    rwa [Binary64.ofQuotient_of_lt negative hfin, div_right_comm, Nat.cast_mul,
      mul_div_cancel_right₀ _ hunit] at hnear

end EditList.Decimal
