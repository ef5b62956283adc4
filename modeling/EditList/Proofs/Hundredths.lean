import EditList.Proofs.Time

/-!
# Times with two decimal places

`Time.shown` is the number of hundredths that is written for a time.  For a time that was read the text
is a plain numeral with two places (`Parsed.secondsText_eq`), and `shown` keeps the order of the totals
(`shown_le_shown`).

A lead-in is left out by a test of its own: the total is multiplied by one hundred, rounded to binary64
and then to a whole number, a half going up.  The text is rounded once and from the exact total, a half
going to the even neighbour.  The two agree about zero (`Parsed.isNearZero_iff`): no total that
the format holds lies so close below half a hundredth that the product would be rounded up to it.  Hence
the test is the question whether the text is `0.00` (`zero_tests_agree`).
-/

namespace EditList

namespace Binary64

theorem hundredths_mono {u v : ℕ} (h : u ≤ v) : hundredths u ≤ hundredths v :=
  roundDiv_mono _ _ (Nat.mul_le_mul_right 100 h)

/-- Up to half a hundredth, and not beyond, a magnitude is printed as zero. -/
theorem hundredths_eq_zero_iff (u : ℕ) : hundredths u = 0 ↔ 2 * (u * 100) ≤ unitsPerOne :=
  roundDiv_toEven_eq_zero_iff unitsPerOne_pos

/-- A magnitude is rounded to at most `k` hundredths if it lies below the middle of `k` and `k + 1`,
or on it and `k` is even. -/
theorem hundredths_le_iff (u k : ℕ) :
    hundredths u ≤ k ↔ 2 * (u * 100) < (2 * k + 1) * unitsPerOne ∨
      2 * (u * 100) = (2 * k + 1) * unitsPerOne ∧ k % 2 = 0 :=
  roundDiv_toEven_le_iff unitsPerOne_pos

/-- One is no multiple of one hundred units, so no two totals are exactly a hundredth apart. -/
theorem add_unitsPerOne_ne (u v : ℕ) : u * 100 + unitsPerOne ≠ v * 100 := by
  have hmod : unitsPerOne % 100 ≠ 0 := by decide +kernel
  omega

/-- Magnitudes that are a hundredth apart are printed apart. -/
theorem hundredths_lt_hundredths {u v : ℕ} (h : u * 100 + unitsPerOne ≤ v * 100) :
    hundredths u < hundredths v := by
  have hpos := unitsPerOne_pos
  -- two ties that are exactly a hundredth apart would meet at the even number between them
  have hne := add_unitsPerOne_ne u v
  by_contra hle
  rw [Nat.not_lt] at hle
  cases hk : hundredths u with
  | zero =>
    rw [hk, hundredths_le_iff] at hle
    omega
  | succ j =>
    have hmiddle : (2 * (j + 1) + 1) * unitsPerOne = (2 * j + 1) * unitsPerOne + 2 * unitsPerOne := by
      ring
    have hgt : ¬ hundredths u ≤ j := by omega
    rw [hk, hundredths_le_iff, hmiddle] at hle
    rw [hundredths_le_iff] at hgt
    omega

/-! ### The test for zero -/

theorem isZero_ofQuotient (negative : Bool) (num den : ℕ) :
    (ofQuotient negative num den).isZero = true ↔ nearestUnits num den = 0 := by
  by_cases h : nearestUnits num den < overflowUnits
  · rw [ofQuotient_of_lt negative h, isZero, beq_iff_eq]
  · rw [ofQuotient_of_not_lt negative h]
    simp only [isZero, Bool.false_eq_true, false_iff]
    intro h0
    rw [h0] at h
    exact h overflowUnits_pos

/-- Halves are rounded away from zero, so only less than a half becomes zero. -/
theorem isZero_roundHalfAway (negative : Bool) {v : ℕ} (hv : Representable v) :
    (roundHalfAway (.finite negative v hv)).isZero = true ↔ 2 * v < unitsPerOne := by
  rw [roundHalfAway, isZero_ofQuotient, ← roundDiv_up_eq_zero_iff unitsPerOne_pos]
  have hone : unitsPerOne = 1 * twoPow unitBits := by rw [Nat.one_mul, unitsPerOne]
  rcases Nat.eq_zero_or_pos (roundDiv .up v unitsPerOne) with h0 | hpos
  · rw [h0, Nat.zero_mul]
    simpa using representable_zero.nearestUnits_eq Nat.one_pos
  · -- a whole number of at least one is not rounded to zero
    have hle : 1 * twoPow unitBits ≤
        nearestUnits (roundDiv .up v unitsPerOne * unitsPerOne) 1 := by
      apply le_nearestUnits (by decide) Nat.one_pos
      rw [Nat.mul_one, ← hone]
      exact Nat.le_mul_of_pos_left _ hpos
    have hunit := twoPow_pos unitBits
    constructor
    · intro h
      omega
    · intro h
      omega

/-- On the grid of `2 ^ 1014`, where half a hundredth lies, no total is just below it. -/
theorem mul_hundred_le_of_grid {k : ℕ} (h : 2 * (k * twoPow 1014 * 100) ≤ unitsPerOne) :
    k * twoPow 1014 * 100 ≤ (twoPow 53 - 1) * twoPow 1020 := by
  have h60 : twoPow 60 = 1152921504606846976 := rfl
  have h53 : twoPow 53 = 9007199254740992 := rfl
  have h6 : twoPow 6 = 64 := rfl
  have hpos := twoPow_pos 1014
  rw [unitsPerOne, unitBits, twoPow_eq_mul (show 1074 = 60 + 1014 from rfl), h60] at h
  rw [twoPow_eq_mul (show 1020 = 6 + 1014 from rfl), h53, h6]
  generalize twoPow 1014 = grid at h hpos ⊢
  have hk : 200 * k ≤ 1152921504606846976 := by
    apply Nat.le_of_mul_le_mul_right _ hpos
    calc 200 * k * grid = 2 * (k * grid * 100) := by ring
      _ ≤ 1152921504606846976 * grid := h
  calc k * grid * 100 = 100 * k * grid := by ring
    _ ≤ (9007199254740992 - 1) * 64 * grid := Nat.mul_le_mul_right _ (by omega)
    _ = (9007199254740992 - 1) * (64 * grid) := Nat.mul_assoc ..

/-- What shows as zero hundredths stays a step of the format below half a hundredth. -/
theorem mul_hundred_le {u : ℕ} (hu : Representable u) (h : 2 * (u * 100) ≤ unitsPerOne) :
    u * 100 ≤ (twoPow 53 - 1) * twoPow 1020 := by
  obtain ⟨-, m, e, hm, rfl⟩ := hu
  rcases Nat.lt_or_ge e 1014 with he | he
  · -- a finer grid ends far below half a hundredth
    have h53 : twoPow 53 = 9007199254740992 := rfl
    have h7 : twoPow 7 = 128 := rfl
    calc m * twoPow e * 100 ≤ twoPow 53 * twoPow 1013 * 100 :=
          Nat.mul_le_mul_right _ (Nat.mul_le_mul hm.le (twoPow_le_twoPow (Nat.le_of_lt_succ he)))
      _ ≤ (twoPow 53 - 1) * twoPow 1020 := by
          rw [twoPow_eq_mul (show 1020 = 7 + 1013 from rfl), h53, h7]
          omega
  · rw [← twoPow_sub_mul he, ← Nat.mul_assoc m] at h ⊢
    exact mul_hundred_le_of_grid h

/-- The test that multiplies by a hundred and rounds agrees with the printed hundredths, although it
rounds twice. -/
theorem IsOffset.isZero_mul_hundred_iff {x : Binary64} (hx : x.IsOffset) :
    (x * ofNat 100).roundHalfAway.isZero = true ↔ hundredths x.magnitude = 0 := by
  obtain ⟨u, hu, rfl⟩ := hx
  have hhalf : unitsPerOne = 2 * (1 * twoPow 1073) := by
    rw [Nat.one_mul, ← twoPow_succ, unitsPerOne, unitBits]
  have hprod : u * (100 * unitsPerOne) = u * 100 * unitsPerOne := (Nat.mul_assoc ..).symm
  rw [ofNat_eq_finite (by decide), mul_def, mul, hprod, hundredths_eq_zero_iff, magnitude]
  constructor
  · intro hzero
    by_contra hgt
    -- the product is at least one half, which the format holds, so rounding keeps it there
    have hge : 1 * twoPow 1073 ≤ nearestUnits (u * 100 * unitsPerOne) unitsPerOne := by
      apply le_nearestUnits (by decide) unitsPerOne_pos
      exact Nat.mul_le_mul_right _ (by omega)
    by_cases hfin : nearestUnits (u * 100 * unitsPerOne) unitsPerOne < overflowUnits
    · rw [ofQuotient_of_lt _ hfin, isZero_roundHalfAway] at hzero
      omega
    · rw [ofQuotient_of_not_lt _ hfin] at hzero
      simp [roundHalfAway, isZero] at hzero
  · intro h
    -- the product is at most the number before one half, which the format holds as well
    have hle : nearestUnits (u * 100 * unitsPerOne) unitsPerOne ≤ (twoPow 53 - 1) * twoPow 1020 := by
      apply nearestUnits_le (by decide) unitsPerOne_pos
      exact Nat.mul_le_mul_right _ (mul_hundred_le hu h)
    have hlt : (twoPow 53 - 1) * twoPow 1020 < 1 * twoPow 1073 := by
      rw [Nat.one_mul, twoPow_eq_mul (show 1073 = 53 + 1020 from rfl)]
      exact Nat.mul_lt_mul_of_pos_right (by decide) (twoPow_pos 1020)
    have hover : twoPow 1073 < overflowUnits := twoPow_lt_twoPow (by decide)
    have hfin : nearestUnits (u * 100 * unitsPerOne) unitsPerOne < overflowUnits := by omega
    rw [ofQuotient_of_lt _ hfin, isZero_roundHalfAway]
    omega

/-! ### The text -/

/-- A number without a sign is printed as its hundredths. -/
theorem IsOffset.twoPlaces_eq {x : Binary64} (hx : x.IsOffset) :
    x.twoPlaces = String.ofList (hundredthsText (hundredths x.magnitude)) := by
  obtain ⟨u, h, rfl⟩ := hx
  simp [twoPlaces, twoPlacesWide, isNegative, twoPlacesBody, magnitude, List.leftpad]

theorem valueOf_toDigits_append (h : ℕ) :
    Decimal.valueOf (Nat.toDigits 10 (h / 100) ++
      [Nat.digitChar (h % 100 / 10), Nat.digitChar (h % 10)]) = h := by
  have htens : h % 100 / 10 < 10 := by omega
  have hones : h % 10 < 10 := by omega
  rw [Decimal.valueOf, Nat.ofDigitChars_append, Nat.ofDigitChars_ten_toDigits,
    Nat.ofDigitChars_cons_digitChar_of_lt_ten htens, Nat.ofDigitChars_cons_digitChar_of_lt_ten hones,
    Nat.ofDigitChars_nil]
  omega

/-- The digits of a number of hundredths, the point left out, give the number back. -/
theorem valueOf_hundredthsText (h : ℕ) :
    Decimal.valueOf ((hundredthsText h).filter Char.isDigit) = h := by
  have hwhole : (Nat.toDigits 10 (h / 100)).filter Char.isDigit = Nat.toDigits 10 (h / 100) := by
    rw [List.filter_eq_self]
    intro c hc
    exact Nat.isDigit_of_mem_toDigits (by decide) (by decide) hc
  have htens : h % 100 / 10 < 10 := by omega
  have hones : h % 10 < 10 := by omega
  have hplaces : ['.', Nat.digitChar (h % 100 / 10), Nat.digitChar (h % 10)].filter Char.isDigit =
      [Nat.digitChar (h % 100 / 10), Nat.digitChar (h % 10)] := by
    rw [List.filter_cons_of_neg (by decide), List.filter_cons_of_pos (by simpa using htens),
      List.filter_cons_of_pos (by simpa using hones), List.filter_nil]
  rw [hundredthsText, List.filter_append, hwhole, hplaces, valueOf_toDigits_append]

end Binary64

/-- The number of hundredths that a text with two decimal places gives: the value of its digits, the
point left out. -/
def shownHundredths (text : String) : ℕ :=
  Decimal.valueOf (text.toList.filter Char.isDigit)

namespace Time

/-- The number of hundredths of a second that is written for a time. -/
def shown (t : Time) : ℕ :=
  shownHundredths t.secondsText

theorem Parsed.shown_eq {t : Time} (ht : t.Parsed) : t.shown = Binary64.hundredths t.units := by
  rw [shown, shownHundredths, secondsText, ht.total_isOffset.twoPlaces_eq, String.toList_ofList,
    Binary64.valueOf_hundredthsText, units]

theorem Parsed.secondsText_eq {t : Time} (ht : t.Parsed) :
    t.secondsText = String.ofList (Binary64.hundredthsText t.shown) := by
  rw [ht.shown_eq, secondsText, ht.total_isOffset.twoPlaces_eq, units]

/-- Times in order show hundredths in order. -/
theorem shown_le_shown {s t : Time} (hs : s.Parsed) (ht : t.Parsed) (h : s.units ≤ t.units) :
    s.shown ≤ t.shown := by
  rw [hs.shown_eq, ht.shown_eq]
  exact Binary64.hundredths_mono h

/-- The start that is near zero is the one that shows zero. -/
theorem Parsed.isNearZero_iff {t : Time} (ht : t.Parsed) : t.isNearZero = true ↔ t.shown = 0 := by
  rw [ht.shown_eq, units, isNearZero]
  exact ht.total_isOffset.isZero_mul_hundred_iff

/-- A time that does not count as zero lies after the start of the media. -/
theorem Parsed.units_pos {t : Time} (ht : t.Parsed) (h : t.isNearZero = false) : 0 < t.units := by
  rw [Nat.pos_iff_ne_zero]
  intro h0
  have hshown : t.shown = 0 := by
    rw [ht.shown_eq, h0, Binary64.hundredths_eq_zero_iff]
    exact Nat.zero_le _
  rw [ht.isNearZero_iff.2 hshown] at h
  exact Bool.noConfusion h

theorem Parsed.shown_eq_zero_iff {t : Time} (ht : t.Parsed) :
    t.shown = 0 ↔ t.secondsText = "0.00" := by
  constructor
  · intro h
    rw [ht.secondsText_eq, h]
    decide
  · intro h
    rw [shown, h]
    decide

/-- A time that was read is near zero exactly when it is printed as `0.00`.  So no lead-in is
written with the duration zero, and none that would be longer is left out. -/
theorem zero_tests_agree {text : String} {t : Time} (h : parse text = .ok t) :
    t.isNearZero = true ↔ t.secondsText = "0.00" := by
  have ht : t.Parsed := ⟨text, h⟩
  rw [ht.isNearZero_iff, ht.shown_eq_zero_iff]

/-- A negative zero, and the two numbers around half a hundredth. -/
theorem zero_tests_agree_at_half :
    ∃ r s t, parse "-0" = .ok r ∧ parse "0.004999999999999999" = .ok s ∧ parse "0:0.005" = .ok t ∧
      (r.isNearZero = true ↔ r.secondsText = "0.00") ∧
      (s.isNearZero = true ↔ s.secondsText = "0.00") ∧
      (t.isNearZero = true ↔ t.secondsText = "0.00") := by
  have hr : (parse "-0").toOption.isSome = true := by decide +kernel
  have hs : (parse "0.004999999999999999").toOption.isSome = true := by decide +kernel
  have ht : (parse "0:0.005").toOption.isSome = true := by decide +kernel
  obtain ⟨r, hr⟩ := exists_eq_ok hr
  obtain ⟨s, hs⟩ := exists_eq_ok hs
  obtain ⟨t, ht⟩ := exists_eq_ok ht
  exact ⟨r, s, t, hr, hs, ht, zero_tests_agree hr, zero_tests_agree hs, zero_tests_agree ht⟩

end Time

end EditList
