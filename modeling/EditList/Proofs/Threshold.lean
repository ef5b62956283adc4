import EditList.Proofs.ExactOffset
import EditList.Proofs.Spacing

/-!
# The threshold and its slack

The checks compare a difference of totals, which are rounded, with a threshold of a millisecond less a
slack of a nanosecond, which is rounded as well.  Below a million seconds the totals are exact up to
`2 ^ (-33)` seconds, so their difference is exact up to `2 ^ (-32)` seconds, a quarter of the slack.
Hence bounds that are given a millisecond apart are never refused (`apart_of_le`), and bounds that are
given closer than that by two nanoseconds are always refused (`not_apart_of_le`).

* `threshold_exact_up_to_slack`: the statement for every two texts that are read as times.
-/

namespace EditList

/-! ### The least difference -/

theorem Representable.le_nearestUnits {u n : ℕ} (hu : Representable u) (h : u ≤ n) :
    u ≤ nearestUnits n 1 := by
  have hself := hu.nearestUnits_eq Nat.one_pos
  rw [Nat.mul_one] at hself
  calc u = nearestUnits u 1 := hself.symm
    _ ≤ nearestUnits n 1 := nearestUnits_mono Nat.one_pos h

theorem representable_leastUnits : Representable leastUnits := by
  obtain ⟨u, hu, heq⟩ := isOffset_threshold_sub_slack
  rw [leastUnits, heq]
  exact hu

/-- The threshold less half of the slack passes. -/
theorem leastUnits_le : 10000000000 * leastUnits ≤ 9999995 * unitsPerOne := by
  decide +kernel

/-- The threshold less some one and a half times the slack does not pass. -/
theorem lt_leastUnits : 1099510000 * twoPow 1034 < leastUnits := by
  decide +kernel

/-! ### Bounds that are close to given ones -/

variable {x y : ℚ} {u v : ℕ}

/-- Exact offsets that are a millisecond apart have totals that are apart: the slack is larger than
both rounding errors. -/
theorem apart_of_le (hu : |(u : ℚ) - x * unitsPerOne| ≤ twoPow 1041)
    (hv : |(v : ℚ) - y * unitsPerOne| ≤ twoPow 1041) (h : 1 / 1000 ≤ y - x) : Apart u v := by
  have hunit : (unitsPerOne : ℚ) = 2 ^ 33 * twoPow 1041 := cast_twoPow_add 33 1041
  have hleast : (10000000000 : ℚ) * leastUnits ≤ 9999995 * unitsPerOne := by
    exact_mod_cast leastUnits_le
  have hstep : (0 : ℚ) < twoPow 1041 := Nat.cast_pos.2 (twoPow_pos _)
  have hgap := mul_le_mul_of_nonneg_right h hstep.le
  rw [abs_le] at hu hv
  have hsum : (u + leastUnits : ℚ) ≤ v := by
    rw [hunit] at hu hv hleast
    linarith
  have hsum' : u + leastUnits ≤ v := by exact_mod_cast hsum
  exact representable_leastUnits.le_nearestUnits (by omega)

/-- Exact offsets that are two nanoseconds closer have totals that are not. -/
theorem not_apart_of_le (hu : |(u : ℚ) - x * unitsPerOne| ≤ twoPow 1041)
    (hv : |(v : ℚ) - y * unitsPerOne| ≤ twoPow 1041) (h : y - x ≤ 1 / 1000 - 2 / 10 ^ 9) :
    ¬ Apart u v := by
  have hunit : (unitsPerOne : ℚ) = 2 ^ 40 * twoPow 1034 := cast_twoPow_add 40 1034
  have herror : (twoPow 1041 : ℚ) = 2 ^ 7 * twoPow 1034 := cast_twoPow_add 7 1034
  have hstep : (0 : ℚ) < twoPow 1034 := Nat.cast_pos.2 (twoPow_pos _)
  have hgap := mul_le_mul_of_nonneg_right h hstep.le
  rw [abs_le] at hu hv
  have hsum : (v : ℚ) ≤ u + 1099510000 * twoPow 1034 := by
    rw [hunit, herror] at hu hv
    linarith
  have hsum' : v ≤ u + 1099510000 * twoPow 1034 := by exact_mod_cast hsum
  have hnearest : nearestUnits (v - u) 1 ≤ 1099510000 * twoPow 1034 :=
    nearestUnits_le (by decide) Nat.one_pos (by omega)
  exact (hnearest.trans_lt lt_leastUnits).not_ge

/-! ### The checks -/

/-- Whether an action between two times, and a gap between them, pass the checks. -/
def PassesChecks (s t : Time) : Prop :=
  (∀ a : Action, a.start = s → a.stop = t → checkLength a = .ok ()) ∧
    ∀ previous a : Action, previous.stop = s → a.start = t → checkGap previous a = .ok ()

/-- Whether an action between two times, and a gap between them, are refused: they run backwards or
are too short. -/
def FailsChecks (s t : Time) : Prop :=
  (∀ a : Action, a.start = s → a.stop = t →
      ∃ fault ∈ [Fault.reversed a.line s t, .tooShort a.line s t threshold],
        checkLength a = .error fault) ∧
    ∀ previous a : Action, previous.stop = s → a.start = t →
      ∃ fault ∈ [Fault.outOfOrder previous.line a.line, .tooClose previous.line a.line],
        checkGap previous a = .error fault

variable {s t : Time}

theorem passesChecks_of_apart (hs : s.Parsed) (ht : t.Parsed) (h : Apart s.units t.units) :
    PassesChecks s t := by
  constructor
  · rintro a rfl rfl
    simp only [checkLength]
    exact (checks_eq_ok_iff hs.total_isOffset ht.total_isOffset).2 h
  · rintro previous a rfl rfl
    simp only [checkGap]
    exact (checks_eq_ok_iff hs.total_isOffset ht.total_isOffset).2 h

/-- What does not pass is refused by one of the two conditions. -/
theorem exists_fault_of_not_apart {x y : Binary64} (hx : x.IsOffset) (hy : y.IsOffset)
    (h : ¬ Apart x.magnitude y.magnitude) (reversed close : Fault) :
    ∃ fault ∈ [reversed, close],
      (if y.lt x then .error reversed
        else if isBelowThreshold (y - x) then .error close else .ok ()) =
        (.error fault : Except Fault Unit) := by
  rw [← @checks_eq_ok_iff x y hx hy reversed close] at h
  split_ifs at h ⊢ with hlt hbelow
  · exact ⟨reversed, by simp, rfl⟩
  · exact ⟨close, by simp, rfl⟩
  · exact absurd rfl h

theorem failsChecks_of_not_apart (hs : s.Parsed) (ht : t.Parsed) (h : ¬ Apart s.units t.units) :
    FailsChecks s t := by
  constructor
  · rintro a rfl rfl
    simp only [checkLength]
    exact exists_fault_of_not_apart hs.total_isOffset ht.total_isOffset h _ _
  · rintro previous a rfl rfl
    simp only [checkGap]
    exact exists_fault_of_not_apart hs.total_isOffset ht.total_isOffset h _ _

/-- Below a million seconds the checks decide by the exact offsets that the texts stand for, up to
their slack: a millisecond or more always passes, and what is two nanoseconds or more below it
always fails. -/
theorem threshold_exact_up_to_slack {a b : String} (hs : Time.parse a = .ok s)
    (ht : Time.parse b = .ok t) :
    ∃ x y, Time.exactOffset? a = some x ∧ Time.exactOffset? b = some y ∧
      (x < 1000000 → y < 1000000 →
        (1 / 1000 ≤ y - x → PassesChecks s t) ∧
          (y - x ≤ 1 / 1000 - 2 / 10 ^ 9 → FailsChecks s t)) := by
  obtain ⟨_, _, hx, -⟩ := Time.exists_exactOffset? hs
  obtain ⟨_, _, hy, -⟩ := Time.exists_exactOffset? ht
  refine ⟨_, _, hx, hy, fun hxlt hylt => ?_⟩
  -- both totals are close to the exact offsets, and the slack is larger than the two errors
  have hu := Time.abs_units_sub_le hs hx hxlt
  have hv := Time.abs_units_sub_le ht hy hylt
  constructor
  · intro h
    exact passesChecks_of_apart ⟨a, hs⟩ ⟨b, ht⟩ (apart_of_le hu hv h)
  · intro h
    exact failsChecks_of_not_apart ⟨a, hs⟩ ⟨b, ht⟩ (not_apart_of_le hu hv h)

/-- A minute is a millisecond after 59.999 seconds, and two nanoseconds less are too few. -/
theorem threshold_exact_up_to_slack_at_a_minute :
    (∃ s t, Time.parse "59.999" = .ok s ∧ Time.parse "1:00" = .ok t ∧ PassesChecks s t) ∧
      ∃ s t, Time.parse "59.999000002" = .ok s ∧ Time.parse "1:00" = .ok t ∧ FailsChecks s t := by
  have hminute : Time.exactOffset? "1:00" = some 60 := by decide +kernel
  have hbefore : Time.exactOffset? "59.999" = some (59999 / 1000) := by decide +kernel
  have hclose : Time.exactOffset? "59.999000002" = some (59999000002 / 10 ^ 9) := by decide +kernel
  obtain ⟨s, hs⟩ : ∃ s, Time.parse "59.999" = .ok s := exists_eq_ok (by decide +kernel)
  obtain ⟨r, hr⟩ : ∃ r, Time.parse "59.999000002" = .ok r := exists_eq_ok (by decide +kernel)
  obtain ⟨t, ht⟩ : ∃ t, Time.parse "1:00" = .ok t := exists_eq_ok (by decide +kernel)
  refine ⟨⟨s, t, hs, ht, ?_⟩, r, t, hr, ht, ?_⟩
  · obtain ⟨x, y, hx, hy, h⟩ := threshold_exact_up_to_slack hs ht
    obtain rfl := Option.some.inj (hx.symm.trans hbefore)
    obtain rfl := Option.some.inj (hy.symm.trans hminute)
    exact (h (by norm_num) (by norm_num)).1 (by norm_num)
  · obtain ⟨x, y, hx, hy, h⟩ := threshold_exact_up_to_slack hr ht
    obtain rfl := Option.some.inj (hx.symm.trans hclose)
    obtain rfl := Option.some.inj (hy.symm.trans hminute)
    exact (h (by norm_num) (by norm_num)).2 (by norm_num)

end EditList
