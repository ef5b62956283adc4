import EditList.Proofs.Binary64.Error
import EditList.Proofs.Decimal
import EditList.Proofs.Time

/-!
# The exact offset that a text gives

The parts of a time are decimal numerals, so a text stands for a rational number of seconds
(`Time.exactOffset?`).  A text that is read as a time stands for one, and what is read of it is rounded
twice: the seconds when they are read, and the total when the hours and the minutes are added
(`exists_exactOffset?`).

* `abs_units_sub_le`: below a million seconds the total lies within `2 ^ (-33)` seconds of the exact
  offset, whatever the split into hours, minutes and seconds.
-/

namespace EditList

/-! ### Literals -/

namespace Decimal

/-- The exact number with a sign. -/
def signedValue (negative : Bool) (d : Decimal) : ℚ :=
  if negative then -d.value else d.value

/-- The exact number that a numeral with an optional sign stands for. -/
def literal? (cs : List Char) : Option ℚ :=
  (readUnsigned (splitSign cs).2).map (signedValue (splitSign cs).1)

/-- The natural number that a numeral with an optional plus sign stands for. -/
def natural? (cs : List Char) : Option ℕ :=
  readDigits (match cs with
    | '+' :: rest => rest
    | _ => cs)

/-- Reading a word is reading a natural number and asking whether it fits into 32 bits. -/
theorem readWord_eq_bind (cs : List Char) :
    readWord cs = (natural? cs).bind fun n => if n < twoPow 32 then some n.toUInt32 else none := by
  simp only [readWord, natural?]
  cases readDigits _ <;> rfl

theorem natural?_of_readWord {cs : List Char} {n : UInt32} (h : readWord cs = some n) :
    natural? cs = some n.toNat := by
  rw [readWord_eq_bind] at h
  obtain ⟨k, hk, hn⟩ := Option.bind_eq_some_iff.1 h
  split_ifs at hn with hlt
  obtain rfl := Option.some.inj hn
  rw [hk, Nat.toUInt32_eq, UInt32.toNat_ofNat_of_lt' hlt]

/-- A finite number was read from a literal with an exact value, and it is that value rounded. -/
theorem exists_literal?_of_readBinary64 {cs : List Char} {x : Binary64}
    (h : readBinary64 cs = some x) (hfinite : x.isFinite = true) :
    ∃ negative d, literal? cs = some (signedValue negative d) ∧ x = .ofDecimal negative d := by
  simp only [readBinary64] at h
  split_ifs at h with hnan hinf
  · obtain rfl := Option.some.inj h
    cases hfinite
  · obtain rfl := Option.some.inj h
    cases hfinite
  · obtain ⟨d, hd, rfl⟩ := Option.map_eq_some_iff.1 h
    refine ⟨(splitSign cs).1, d, ?_, rfl⟩
    rw [literal?, hd, Option.map_some]

theorem unitsNum_lt {d : Decimal} (h : d.value < twoPow 20) :
    d.unitsNum < twoPow (1040 + 54) * d.unitsDen := by
  have hpos : (0 : ℚ) < d.unitsDen := Nat.cast_pos.2 d.unitsDen_pos
  have hscale : twoPow (1040 + 54) = twoPow 20 * unitsPerOne := by
    rw [unitsPerOne, ← twoPow_add]
    rfl
  have hlt : (d.unitsNum : ℚ) < twoPow (1040 + 54) * d.unitsDen := by
    rw [← div_lt_iff₀ hpos, d.unitsNum_div_unitsDen, hscale, Nat.cast_mul]
    exact mul_lt_mul_of_pos_right h (Nat.cast_pos.2 unitsPerOne_pos)
  exact_mod_cast hlt

/-- A decimal below `2 ^ 20` that is not rounded to something below zero is moved by at most
`2 ^ (-34)`. -/
theorem abs_magnitude_sub_le {negative : Bool} {d : Decimal}
    (hnonneg : (Binary64.ofDecimal negative d).IsNonneg) (hlt : d.signedValue negative < twoPow 20) :
    |((Binary64.ofDecimal negative d).magnitude : ℚ) - d.signedValue negative * unitsPerOne| ≤
      twoPow 1040 := by
  obtain ⟨s, u, hu, heq, hneg⟩ := hnonneg
  rw [heq, Binary64.magnitude]
  rw [Binary64.ofDecimal_eq_ofQuotient] at heq
  obtain ⟨rfl, rfl⟩ := Binary64.eq_of_ofQuotient_eq_finite heq
  cases s with
  | false =>
    have herror := abs_nearestUnits_sub_le d.unitsDen_pos (unitsNum_lt hlt)
    rwa [d.unitsNum_div_unitsDen] at herror
  | true =>
    -- only what is rounded to the negative zero is not below zero
    have hzero := hneg rfl
    have hhalf := (nearestUnits_eq_zero_iff d.unitsDen_pos).1 hzero
    have hsmall : d.unitsNum < twoPow (1040 + 54) * d.unitsDen := by
      calc d.unitsNum < d.unitsDen := by have hpos := d.unitsDen_pos; omega
        _ ≤ twoPow (1040 + 54) * d.unitsDen := Nat.le_mul_of_pos_left _ (twoPow_pos _)
    have herror := abs_nearestUnits_sub_le d.unitsDen_pos hsmall
    rw [hzero, Nat.cast_zero, zero_sub, abs_neg, d.unitsNum_div_unitsDen] at herror
    rw [hzero, Nat.cast_zero, zero_sub, signedValue, if_pos rfl, neg_mul, neg_neg]
    exact herror

end Decimal

namespace Time

/-- The exact offset that the parts of a time stand for, in seconds. -/
def partsOffset? : List (List Char) → Option ℚ
  | [s] => Decimal.literal? s
  | [m, s] => do
    return 60 * (← Decimal.natural? m) + (← Decimal.literal? s)
  | [h, m, s] => do
    return 3600 * (← Decimal.natural? h) + 60 * (← Decimal.natural? m) + (← Decimal.literal? s)
  | _ => none

/-- The exact offset that a text stands for, in seconds. -/
def exactOffset? (text : String) : Option ℚ :=
  let cs := Text.trim text.toList
  if cs.isEmpty then some 0 else partsOffset? (parts cs)

theorem natural?_of_readWhole {error : String → Error} {part : List Char} {n : UInt32}
    (h : readWhole error part = .ok n) : Decimal.natural? part = some n.toNat := by
  rw [readWhole] at h
  split at h
  · next hn =>
    obtain rfl := Except.ok.inj h
    exact Decimal.natural?_of_readWord hn
  · cases h

theorem exists_literal?_of_readSeconds {part : List Char} {x : Binary64}
    (h : readSeconds part = .ok x) :
    ∃ negative d, Decimal.literal? part = some (Decimal.signedValue negative d) ∧
      x = .ofDecimal negative d := by
  rw [readSeconds] at h
  split at h
  · next hx =>
    split_ifs at h with hfinite
    obtain rfl := Except.ok.inj h
    rw [Bool.and_eq_true] at hfinite
    exact Decimal.exists_literal?_of_readBinary64 hx hfinite.1
  · cases h

/-- A text that is read as a time has an exact offset: the whole seconds of its hours and minutes,
and the exact value of its seconds. -/
theorem exists_exactOffset? {text : String} {t : Time} (h : parse text = .ok t) :
    ∃ negative d, exactOffset? text = some (t.wholeSeconds + Decimal.signedValue negative d) ∧
      t.second = .ofDecimal negative d := by
  simp only [parse] at h
  simp only [exactOffset?]
  split_ifs at h ⊢ with hblank
  · obtain rfl := Except.ok.inj h
    refine ⟨false, ⟨0, 0⟩, ?_, rfl⟩
    have hvalue : Decimal.signedValue false ⟨0, 0⟩ = 0 := by simp [Decimal.signedValue, Decimal.value]
    have hwhole : zero.wholeSeconds = 0 := rfl
    rw [hvalue, hwhole, Nat.cast_zero, add_zero]
  · split at h
    · next hparts =>
      obtain ⟨x, hx, h⟩ := bind_eq_ok.1 h
      obtain rfl := Except.ok.inj h
      obtain ⟨negative, d, hliteral, rfl⟩ := exists_literal?_of_readSeconds hx
      refine ⟨negative, d, ?_, rfl⟩
      rw [hparts, partsOffset?, wholeSeconds]
      simp [hliteral]
    · next hparts =>
      obtain ⟨m, hm, h⟩ := bind_eq_ok.1 h
      obtain ⟨x, hx, h⟩ := bind_eq_ok.1 h
      obtain rfl := Except.ok.inj h
      obtain ⟨negative, d, hliteral, rfl⟩ := exists_literal?_of_readSeconds hx
      refine ⟨negative, d, ?_, rfl⟩
      rw [hparts, partsOffset?, wholeSeconds]
      simp [hliteral, natural?_of_readWhole hm, mul_comm]
    · next hparts =>
      obtain ⟨n, hn, h⟩ := bind_eq_ok.1 h
      obtain ⟨m, hm, h⟩ := bind_eq_ok.1 h
      obtain ⟨x, hx, h⟩ := bind_eq_ok.1 h
      obtain rfl := Except.ok.inj h
      obtain ⟨negative, d, hliteral, rfl⟩ := exists_literal?_of_readSeconds hx
      refine ⟨negative, d, ?_, rfl⟩
      rw [hparts, partsOffset?, wholeSeconds]
      simp [hliteral, natural?_of_readWhole hn, natural?_of_readWhole hm, mul_comm]
    · cases h

/-! ### The error of the total -/

/-- The hours and the minutes are added to the seconds and the sum is rounded. -/
theorem units_eq_nearestUnits {t : Time} (ht : t.second.IsNonneg) :
    t.units = nearestUnits (t.wholeSeconds * unitsPerOne + t.second.magnitude) 1 := by
  obtain ⟨u, hu, htotal⟩ := total_isOffset ht
  rw [units, htotal, Binary64.magnitude]
  rw [total_eq_ofQuotient ht] at htotal
  exact (Binary64.eq_of_ofQuotient_eq_finite htotal).2

/-- Adding whole seconds to rounded ones doubles the error at most. -/
theorem abs_nearestUnits_add_sub_le {w u : ℕ} {v : ℚ}
    (hu : |(u : ℚ) - v * unitsPerOne| ≤ twoPow 1040) (hlt : w + v < 1000000) :
    |(nearestUnits (w * unitsPerOne + u) 1 : ℚ) - (w + v) * unitsPerOne| ≤ twoPow 1041 := by
  -- everything is a multiple of one power of two, which must not be evaluated
  have hunit : (unitsPerOne : ℚ) = 2 ^ 34 * twoPow 1040 := cast_twoPow_add 34 1040
  have hscale : (twoPow (1040 + 54) : ℚ) = 2 ^ 54 * twoPow 1040 := cast_twoPow_add 54 1040
  have hdouble : (twoPow 1041 : ℚ) = 2 ^ 1 * twoPow 1040 := cast_twoPow_add 1 1040
  have hstep : (0 : ℚ) < twoPow 1040 := Nat.cast_pos.2 (twoPow_pos _)
  rw [abs_le] at hu
  have hsmall : ((w * unitsPerOne + u : ℕ) : ℚ) < twoPow (1040 + 54) := by
    have hbound := mul_lt_mul_of_pos_right hlt hstep
    push_cast
    rw [hunit] at hu ⊢
    rw [hscale]
    linarith
  have htotal := abs_nearestUnits_sub_le Nat.one_pos (by rw [Nat.mul_one]; exact_mod_cast hsmall)
  rw [Nat.cast_one, div_one, abs_le] at htotal
  push_cast at htotal
  rw [hdouble, abs_le]
  constructor <;> linarith

/-- The total of a time below a million seconds is `2 ^ 1041` units, or about `2 ^ (-33)` seconds,
from the exact offset at most. -/
theorem abs_units_sub_le {text : String} {t : Time} {x : ℚ} (h : parse text = .ok t)
    (hx : exactOffset? text = some x) (hlt : x < 1000000) :
    |(t.units : ℚ) - x * unitsPerOne| ≤ twoPow 1041 := by
  obtain ⟨negative, d, hexact, hsecond⟩ := exists_exactOffset? h
  obtain rfl := Option.some.inj (hx.symm.trans hexact)
  have hnonneg := second_of_parse h
  have hseconds : d.signedValue negative < twoPow 20 := by
    have hwhole : (0 : ℚ) ≤ t.wholeSeconds := Nat.cast_nonneg _
    have h20 : (twoPow 20 : ℚ) = 1048576 := by norm_num [twoPow]
    rw [h20]
    linarith
  rw [units_eq_nearestUnits hnonneg]
  rw [hsecond] at hnonneg ⊢
  exact abs_nearestUnits_add_sub_le (Decimal.abs_magnitude_sub_le hnonneg hseconds) hlt

end Time

end EditList
