import EditList.Time
import EditList.Proofs.Binary64.Exact
import EditList.Proofs.Except

/-!
# The total of a time that was read

Reading a time gives seconds that are finite and not below zero (`second_of_parse`); they may be the
negative zero.  For such a time the hours and the minutes are summed without rounding, so the total is
the exact offset rounded once (`total_eq_ofQuotient`), and it is finite and has no sign
(`total_isOffset`), however large the seconds are.
-/

namespace EditList

/-- Whether a number is finite and not below zero; the negative zero counts as zero. -/
def Binary64.IsNonneg (x : Binary64) : Prop :=
  ∃ negative u h, x = .finite negative u h ∧ (negative = true → u = 0)

theorem Binary64.isNonneg_of_isFinite {x : Binary64} (hfin : x.isFinite = true)
    (hlt : x.lt zero = false) : x.IsNonneg := by
  cases x with
  | nan => simp [isFinite] at hfin
  | infinite s => simp [isFinite] at hfin
  | finite s u h =>
    refine ⟨s, u, h, rfl, ?_⟩
    rintro rfl
    simpa [lt, rank?, zero, signedZero] using hlt

namespace Time

/-- Seconds that are accepted are finite and not below zero. -/
theorem readSeconds_isNonneg {part : List Char} {x : Binary64} (h : readSeconds part = .ok x) :
    x.IsNonneg := by
  unfold readSeconds at h
  split at h
  · next y _ =>
    split at h
    · next hy =>
      obtain rfl := Except.ok.inj h
      rw [Bool.and_eq_true, Bool.not_eq_true'] at hy
      exact Binary64.isNonneg_of_isFinite hy.1 hy.2
    · exact absurd h (by simp)
  · exact absurd h (by simp)

theorem second_of_parse {text : String} {t : Time} (h : parse text = .ok t) :
    t.second.IsNonneg := by
  simp only [parse] at h
  split at h
  · obtain rfl := Except.ok.inj h
    exact ⟨false, 0, Binary64.representable_zero, rfl, fun _ => rfl⟩
  · -- with one, two or three parts the last one is the seconds
    split at h
    · obtain ⟨x, hx, h⟩ := bind_eq_ok.1 h
      obtain rfl := Except.ok.inj h
      exact readSeconds_isNonneg hx
    · obtain ⟨m, -, h⟩ := bind_eq_ok.1 h
      obtain ⟨x, hx, h⟩ := bind_eq_ok.1 h
      obtain rfl := Except.ok.inj h
      exact readSeconds_isNonneg hx
    · obtain ⟨n, -, h⟩ := bind_eq_ok.1 h
      obtain ⟨m, -, h⟩ := bind_eq_ok.1 h
      obtain ⟨x, hx, h⟩ := bind_eq_ok.1 h
      obtain rfl := Except.ok.inj h
      exact readSeconds_isNonneg hx
    · exact absurd h (by simp)

/-- Whether a time was read from a text. -/
def Parsed (t : Time) : Prop :=
  ∃ text, parse text = .ok t

/-! ### The total -/

/-- The seconds in the hours and the minutes. -/
def wholeSeconds (t : Time) : ℕ :=
  t.hour.toNat * 3600 + t.minute.toNat * 60

/-- Hours and minutes of 32 bits give less than `2 ^ 44` seconds, which are exact. -/
theorem wholeSeconds_lt (t : Time) : t.wholeSeconds < twoPow 44 := by
  have hh := t.hour.toNat_lt
  have hm := t.minute.toNat_lt
  have h44 : twoPow 44 = 17592186044416 := rfl
  rw [wholeSeconds, h44]
  omega

/-- The hours and minutes are far below the precision of the format. -/
theorem ofNat_wholeSeconds (t : Time) :
    Binary64.ofNat t.hour.toNat * Binary64.ofNat 3600 +
      Binary64.ofNat t.minute.toNat * Binary64.ofNat 60 = Binary64.ofNat t.wholeSeconds := by
  have hh := t.hour.toNat_lt
  have hm := t.minute.toNat_lt
  have h53 : twoPow 53 = 9007199254740992 := rfl
  rw [Binary64.ofNat_mul_ofNat (by omega) (by omega) (by omega),
    Binary64.ofNat_mul_ofNat (by omega) (by omega) (by omega),
    Binary64.ofNat_add_ofNat (by omega) (by omega) (by omega), wholeSeconds]

/-- The total is the exact sum, rounded once. -/
theorem total_eq_ofQuotient {t : Time} (ht : t.second.IsNonneg) :
    t.total = .ofQuotient false (t.wholeSeconds * unitsPerOne + t.second.magnitude) 1 := by
  have hw : t.wholeSeconds < twoPow 53 := t.wholeSeconds_lt.trans (twoPow_lt_twoPow (by decide))
  obtain ⟨s, u, hu, hsec, hneg⟩ := ht
  rw [total, ofNat_wholeSeconds, Binary64.ofNat_eq_finite hw, hsec,
    Binary64.finite_add_finite _ s hu hneg, Binary64.magnitude]

/-- The total is finite and has no sign: hours and minutes are too few to overflow. -/
theorem total_isOffset {t : Time} (ht : t.second.IsNonneg) : t.total.IsOffset := by
  rw [total_eq_ofQuotient ht]
  obtain ⟨s, u, hu, hsec, hneg⟩ := ht
  have hw : t.wholeSeconds * unitsPerOne < twoPow 2044 := by
    calc t.wholeSeconds * unitsPerOne < twoPow 44 * unitsPerOne :=
          Nat.mul_lt_mul_of_pos_right t.wholeSeconds_lt unitsPerOne_pos
      _ = twoPow (44 + unitBits) := by rw [twoPow_add, unitsPerOne]
      _ ≤ twoPow 2044 := twoPow_le_twoPow (by decide)
  have hfin := nearestUnits_add_lt_overflowUnits hu hw
  rw [hsec, Binary64.magnitude, Binary64.ofQuotient_of_lt false hfin]
  exact ⟨_, _, rfl⟩

theorem Parsed.total_isOffset {t : Time} (ht : t.Parsed) : t.total.IsOffset := by
  obtain ⟨text, h⟩ := ht
  exact Time.total_isOffset (second_of_parse h)

/-- The total in units. -/
def units (t : Time) : ℕ :=
  t.total.magnitude

end Time

end EditList
