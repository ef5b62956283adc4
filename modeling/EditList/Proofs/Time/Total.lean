import EditList.Proofs.Time.Grammar

/-!
# The total is rounded once

`Time.exactTotal` is the exact offset of a time.  For a time that was read the total is the number nearest
to it (`isNearest_total`), and a time with parts that are not smaller has a total that is not smaller
(`total_mono`).

These are statements about all hours, all minutes and all seconds that are finite and not below zero, since
each of these times is read from some text (`exists_parse_iff`): every finite number has a literal, with
enough digits.
-/

namespace EditList

/-! ### Every number has a literal -/

namespace Decimal

/-- Every binary fraction is a decimal one. -/
theorem value_five_pow (u n : ℕ) : (⟨u * 5 ^ n, -n⟩ : Decimal).value = u / 2 ^ n := by
  have hpow : (10 : ℚ) ^ (-n : ℤ) = (5 ^ n * 2 ^ n)⁻¹ := by
    rw [zpow_neg, zpow_natCast, ← mul_pow]
    norm_num
  rw [value, hpow]
  push_cast
  field_simp

theorem numeral_toDigits (u n : ℕ) :
    Numeral (Nat.toDigits 10 u ++ 'e' :: '-' :: Nat.toDigits 10 n) ⟨u, -n⟩ := by
  have hmantissa := Mantissa.whole (isDigitRun_toDigits u) (by simp)
  have hexponent := Exponent.given (.inl rfl) .minus (isDigitRun_toDigits n) (by simp)
  rw [valueOf_toDigits] at hmantissa hexponent
  simpa using Numeral.mk hmantissa hexponent

/-- Every finite number has a literal, so every such number of seconds can be written. -/
theorem exists_literal (negative : Bool) {u : ℕ} (hu : Representable u) :
    ∃ cs, Literal cs (.finite negative u hu) := by
  have hnear := Binary64.isNearest_ofQuotient negative Nat.one_pos
    ((hu.nearestUnits_eq Nat.one_pos).trans_lt hu.1)
  rw [Binary64.ofQuotient_of_representable negative hu Nat.one_pos, Nat.mul_one, Nat.cast_one,
    div_one] at hnear
  -- a unit is a negative power of two, which is a decimal fraction
  have hvalue : (((⟨u * 5 ^ unitBits, -unitBits⟩ : Decimal).value : ℚ) : ℝ) = u / unitsPerOne := by
    have hcast : ∀ n : ℕ, (twoPow n : ℝ) = 2 ^ n := fun n => Nat.cast_pow 2 n
    rw [value_five_pow, unitsPerOne, hcast]
    push_cast
    rfl
  rw [← hvalue] at hnear
  have hnumeral := numeral_toDigits (u * 5 ^ unitBits) unitBits
  exact ⟨_, .numeral (sign_minus negative) hnumeral (.finite hnear rfl)⟩

end Decimal

namespace Time

/-- The times that can be read are those with finite seconds that are not below zero. -/
theorem exists_parse_iff (t : Time) :
    (∃ text, parse text = .ok t) ↔ t.second.isFinite = true ∧ 0 ≤ t.second.value := by
  constructor
  · rintro ⟨text, h⟩
    exact Binary64.isNonneg_iff.1 (second_of_parse h)
  · rintro ⟨hfinite, hnonneg⟩
    obtain ⟨negative, u, hu, hsecond⟩ := Binary64.exists_of_isFinite hfinite
    obtain ⟨cs, hliteral⟩ := Decimal.exists_literal negative hu
    rw [← hsecond] at hliteral
    have hcarries : Carries _ t :=
      .hours (Decimal.natural_replicate_append 0 t.hour.toNat)
        (Decimal.natural_replicate_append 0 t.minute.toNat) ⟨hliteral, hfinite, hnonneg⟩
    exact ⟨_, hcarries.parse_intercalate⟩

/-! ### The exact total -/

/-- The exact offset in seconds. -/
noncomputable def exactTotal (t : Time) : ℝ :=
  3600 * t.hour.toNat + 60 * t.minute.toNat + t.second.value

variable {s t : Time}

theorem exactTotal_eq (ht : t.second.IsNonneg) :
    t.exactTotal = ((t.wholeSeconds * unitsPerOne + t.second.magnitude : ℕ) : ℝ) / unitsPerOne := by
  have hunit : (unitsPerOne : ℝ) ≠ 0 := Nat.cast_ne_zero.2 unitsPerOne_pos.ne'
  rw [exactTotal, ht.value_eq, Nat.cast_add, add_div, Nat.cast_mul,
    mul_div_cancel_right₀ _ hunit, wholeSeconds]
  push_cast
  ring

/-- The total is the exact total, rounded once. -/
theorem isNearest_total (ht : t.second.IsNonneg) : t.total.IsNearest t.exactTotal := by
  have hfin : nearestUnits (t.wholeSeconds * unitsPerOne + t.second.magnitude) 1 < overflowUnits := by
    rw [← units_eq_nearestUnits ht]
    obtain ⟨u, hu, htotal⟩ := total_isOffset ht
    rw [units, htotal]
    exact hu.1
  have hnear := Binary64.isNearest_ofQuotient false Nat.one_pos hfin
  rw [← total_eq_ofQuotient ht, Nat.cast_one, div_one] at hnear
  rw [exactTotal_eq ht]
  exact hnear

/-- Totals grow with each part of a time. -/
theorem units_mono (hs : s.second.IsNonneg) (ht : t.second.IsNonneg) (hhour : s.hour ≤ t.hour)
    (hminute : s.minute ≤ t.minute) (hsecond : s.second.value ≤ t.second.value) :
    s.units ≤ t.units := by
  have hunit : (0 : ℝ) < unitsPerOne := Nat.cast_pos.2 unitsPerOne_pos
  rw [UInt32.le_iff_toNat_le] at hhour hminute
  rw [hs.value_eq, ht.value_eq, div_le_div_iff_of_pos_right hunit,
    Nat.cast_le] at hsecond
  have hwhole : s.wholeSeconds ≤ t.wholeSeconds := by
    rw [wholeSeconds, wholeSeconds]
    omega
  rw [units_eq_nearestUnits hs, units_eq_nearestUnits ht]
  exact nearestUnits_mono Nat.one_pos (Nat.add_le_add (Nat.mul_le_mul_right _ hwhole) hsecond)

theorem total_mono (hs : s.second.IsNonneg) (ht : t.second.IsNonneg) (hhour : s.hour ≤ t.hour)
    (hminute : s.minute ≤ t.minute) (hsecond : s.second.value ≤ t.second.value) :
    s.total.value ≤ t.total.value ∧ t.total.lt s.total = false := by
  have hunit : (0 : ℝ) < unitsPerOne := Nat.cast_pos.2 unitsPerOne_pos
  have hle := units_mono hs ht hhour hminute hsecond
  constructor
  · rw [(total_isOffset hs).value_eq, (total_isOffset ht).value_eq,
      div_le_div_iff_of_pos_right hunit, Nat.cast_le]
    exact hle
  · rw [← Bool.not_eq_true, (total_isOffset ht).lt_iff (total_isOffset hs), Nat.not_lt]
    exact hle

end Time

end EditList
