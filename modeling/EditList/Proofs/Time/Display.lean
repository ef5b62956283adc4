import EditList.Proofs.Decimal.TwoPlaces
import EditList.Proofs.Time.Grammar

/-!
# Times as they are shown

The text of a time is its parts joined by colons (`toList_text`), and each part is a phrase of the grammar.
So the text is read back, as the same hours and minutes and the seconds to two decimal places.

* `shown_time_reads_back`: what is read back has the same text.
* `minus_shown_only_for_zero`: numbers below zero are refused, but the sign is tested after rounding.  A
  negative literal that is rounded to zero is read as the negative zero, and that is the one number that is
  shown with a minus sign.
-/

namespace EditList

namespace Binary64

theorem IsNearest.value_nonneg {x : Binary64} {q : ℝ} (h : x.IsNearest q) (hq : 0 ≤ q) :
    0 ≤ x.value := by
  have hzero : Binary64.zero.value = 0 := value_signedZero false
  have hle := h.le .zero rfl
  rw [hzero, zero_sub, abs_neg, abs_of_nonneg hq] at hle
  linarith [(abs_le.1 hle).1]

/-- The only number with a sign that is not below zero is the negative zero. -/
theorem IsNonneg.eq_signedZero {x : Binary64} (hx : x.IsNonneg) (h : x.isNegative = true) :
    x = signedZero true := by
  obtain ⟨negative, u, hu, rfl, hzero⟩ := hx
  obtain rfl : negative = true := h
  obtain rfl : u = 0 := hzero rfl
  rfl

end Binary64

/-- Up to half of the smallest positive number a magnitude is rounded to zero. -/
theorem Decimal.two_mul_unitsNum_le_iff (d : Decimal) :
    2 * d.unitsNum ≤ d.unitsDen ↔ d.value ≤ 1 / 2 ^ 1075 := by
  have hden : (0 : ℚ) < d.unitsDen := Nat.cast_pos.2 d.unitsDen_pos
  have hunit : (0 : ℚ) < unitsPerOne := Nat.cast_pos.2 unitsPerOne_pos
  have hpow : (2 ^ 1075 : ℚ) = 2 * unitsPerOne := by
    have hcast : ∀ n : ℕ, (2 ^ n : ℚ) = twoPow n := fun n => (Nat.cast_pow 2 n).symm
    rw [hcast, twoPow_succ 1074, Nat.cast_mul]
    rfl
  have hhalf : (d.unitsNum / d.unitsDen : ℚ) ≤ 1 / 2 ↔ 2 * d.unitsNum ≤ d.unitsDen := by
    rw [div_le_div_iff₀ hden two_pos, one_mul, mul_comm]
    exact_mod_cast Iff.rfl
  rw [← hhalf, d.unitsNum_div_unitsDen, hpow, le_div_iff₀ two_pos,
    le_div_iff₀ (mul_pos two_pos hunit), mul_assoc, mul_comm (2 : ℚ)]

namespace Time

/-! ### The text and its parts -/

theorem toList_toString_word (n : UInt32) : (toString n).toList = Nat.toDigits 10 n.toNat :=
  Nat.toList_repr

/-- The parts of the text of a time. -/
def shownParts (t : Time) : List (List Char) :=
  let seconds := (t.second.twoPlacesWide 5).toList
  if t.hour = 0 then [Nat.toDigits 10 t.minute.toNat, seconds]
  else [Nat.toDigits 10 t.hour.toNat, (Nat.toDigits 10 t.minute.toNat).leftpad 2 '0', seconds]

theorem toList_text (t : Time) : t.text.toList = [':'].intercalate t.shownParts := by
  have hword := toList_toString_word
  have hstring : ∀ s : String, toString s = s := fun _ => rfl
  have hlength : (toString t.minute).length = (Nat.toDigits 10 t.minute.toNat).length := by
    rw [← String.length_toList, hword]
  rw [text, shownParts]
  split_ifs with hhour
  · simp [hword, hstring]
  · simp [hword, hstring, hlength, Text.pad, List.leftpad]

/-- A time that differs in its seconds only, and these are shown alike. -/
theorem text_eq_of_second {t : Time} {x : Binary64} (h : x.twoPlacesWide 5 = t.second.twoPlacesWide 5) :
    text { t with second := x } = t.text := by
  rw [text, text, h]

/-- The parts of the text carry the hours and minutes of the time, whatever the seconds are read as. -/
theorem carries_shownParts {t : Time} {x : Binary64}
    (hx : Seconds (t.second.twoPlacesWide 5).toList x) :
    Carries t.shownParts { t with second := x } := by
  have hminute := Decimal.natural_replicate_append 0 t.minute.toNat
  have hpadded := Decimal.natural_replicate_append (2 - (Nat.toDigits 10 t.minute.toNat).length)
    t.minute.toNat
  have hhour := Decimal.natural_replicate_append 0 t.hour.toNat
  obtain ⟨hour, minute, second⟩ := t
  rw [shownParts]
  split_ifs with h0
  · obtain rfl : hour = 0 := h0
    exact .minutes hminute hx
  · exact .hours hhour hpadded hx

/-! ### Reading the text back -/

/-- Printed seconds can be read again: as the number nearest to the printed hundredths, with the
sign that they had, and printed again they are the same. -/
theorem exists_seconds_of_isNonneg {x : Binary64} (hx : x.IsNonneg) :
    ∃ y k, Seconds (x.twoPlacesWide 5).toList y ∧ IsNearestWhole (100 * x.value) k ∧
      y.IsNearest (k / 100) ∧ y.isNegative = x.isNegative ∧
      y.twoPlacesWide 5 = x.twoPlacesWide 5 := by
  have hvalue := hx.value_eq
  obtain ⟨negative, u, hu, rfl, hzero⟩ := hx
  obtain ⟨v, hv, hliteral, hnear, hsame⟩ := Decimal.exists_literal_twoPlacesWide 5 negative hu
  have hround := Binary64.isNearestWhole_hundredths u
  -- only zero has a minus sign, and it is shown as zero
  have hsigned : Binary64.signed negative (Binary64.hundredths u / 100) =
      Binary64.hundredths u / 100 := by
    cases negative with
    | false => rfl
    | true =>
      obtain rfl := hzero rfl
      have h0 : Binary64.hundredths 0 = 0 := (Binary64.hundredths_eq_zero_iff 0).2 (Nat.zero_le _)
      simp [Binary64.signed, h0]
  rw [hsigned] at hnear
  have hnonneg : (0 : ℝ) ≤ Binary64.hundredths u / 100 := div_nonneg (Nat.cast_nonneg _) (by norm_num)
  refine ⟨_, _, ⟨hliteral, rfl, hnear.value_nonneg hnonneg⟩, ?_, hnear, rfl, ?_⟩
  · rwa [hvalue]
  · rw [← String.toList_inj, Decimal.toList_twoPlacesWide, Decimal.toList_twoPlacesWide, hsame]

/-- The text of a time that was read is read as a time with the same hours and minutes, whose
seconds are rounded to hundredths, and which has the same text. -/
theorem shown_time_reads_back {text : String} {t : Time} (h : parse text = .ok t) :
    ∃ u k, parse t.text = .ok u ∧ u.hour = t.hour ∧ u.minute = t.minute ∧
      IsNearestWhole (100 * t.second.value) k ∧ u.second.IsNearest (k / 100) ∧
      u.second.isNegative = t.second.isNegative ∧ u.text = t.text := by
  obtain ⟨x, k, hx, hk, hnear, hsign, htext⟩ := exists_seconds_of_isNonneg (second_of_parse h)
  refine ⟨{ t with second := x }, k, ?_, rfl, rfl, hk, hnear, hsign, text_eq_of_second htext⟩
  rw [← String.ofList_toList (s := t.text), toList_text]
  exact (carries_shownParts hx).parse_intercalate

/-- Minutes of sixty and more, and seconds that are rounded up to sixty. -/
theorem shown_time_reads_back_past_sixty :
    ∃ t, parse "61:59.996" = .ok t ∧ t.text = "61:60.00" ∧
      ∃ u k, parse t.text = .ok u ∧ u.hour = t.hour ∧ u.minute = t.minute ∧
        IsNearestWhole (100 * t.second.value) k ∧ u.second.IsNearest (k / 100) ∧
        u.second.isNegative = t.second.isNegative ∧ u.text = t.text := by
  have hread : (parse "61:59.996").toOption.any (fun t => t.text == "61:60.00") = true := by
    decide +kernel
  obtain ⟨t, ht, htext⟩ := exists_eq_ok_and hread
  exact ⟨t, ht, eq_of_beq htext, shown_time_reads_back ht⟩

/-! ### The shape of the text -/

/-- The shapes `M:SS.ss` and `H:MM:SS.ss`; a part that needs more digits has more. -/
inductive ClockText : List Char → Prop
  | minutes {m s : List Char} {k : ℕ} (hm : Decimal.IsDigitRun m) (hne : m ≠ [])
    (hs : Decimal.Hundredths 2 s k) : ClockText (m ++ ':' :: s)
  | hours {h m s : List Char} {k : ℕ} (hh : Decimal.IsDigitRun h) (hne : h ≠ [])
    (hm : Decimal.IsDigitRun m) (htwo : 2 ≤ m.length) (hs : Decimal.Hundredths 2 s k) :
    ClockText (h ++ ':' :: (m ++ ':' :: s))

theorem ClockText.minus_not_mem {cs : List Char} (h : ClockText cs) : '-' ∉ cs := by
  have hdigits : ∀ {ds}, Decimal.IsDigitRun ds → '-' ∉ ds := fun hrun => hrun.not_mem rfl
  have hseconds : ∀ {s k}, Decimal.Hundredths 2 s k → '-' ∉ s := by
    rintro s k ⟨hrun, -, hfraction, -⟩
    simp [hdigits hrun, hdigits hfraction]
  cases h with
  | minutes hm _ hs => simp [hdigits hm, hseconds hs]
  | hours hh _ hm _ hs => simp [hdigits hh, hdigits hm, hseconds hs]

/-- Without a sign the text has one of the two shapes of a clock. -/
theorem clockText_text {t : Time} {u : ℕ} {hu : Representable u} (h : t.second = .finite false u hu) :
    ClockText t.text.toList := by
  have hseconds : Decimal.Hundredths 2 (t.second.twoPlacesWide 5).toList (Binary64.hundredths u) := by
    rw [h, Decimal.toList_twoPlacesWide]
    exact Decimal.hundredths_leftpad 5 _
  have hminute := Decimal.isDigitRun_toDigits t.minute.toNat
  have hzeros := Decimal.isDigitRun_replicate (2 - (Nat.toDigits 10 t.minute.toNat).length)
  rw [toList_text, shownParts]
  split_ifs with hhour
  · rw [List.intercalate_cons_cons, List.intercalate_singleton, List.append_assoc]
    exact .minutes hminute (by simp) hseconds
  · rw [List.intercalate_cons_cons, List.intercalate_cons_cons, List.intercalate_singleton,
      List.append_assoc, List.append_assoc]
    refine .hours (Decimal.isDigitRun_toDigits _) (by simp)
      (Decimal.isDigitRun_append.2 ⟨hzeros, hminute⟩) ?_ hseconds
    rw [List.length_leftpad]
    exact le_max_left _ _

theorem minus_mem_text {t : Time} {u : ℕ} {hu : Representable u} (h : t.second = .finite true u hu) :
    '-' ∈ t.text.toList := by
  have hmem : '-' ∈ (t.second.twoPlacesWide 5).toList := by
    rw [h, Decimal.toList_twoPlacesWide]
    exact List.mem_cons_self
  rw [toList_text, shownParts]
  split_ifs with hhour
  · simp [hmem]
  · simp [hmem]

/-- A negative zero shows a minus, and every other number of seconds gives the shape of a clock. -/
theorem second_cases {t : Time} (ht : t.second.IsNonneg) :
    t.second = .signedZero true ∧ '-' ∈ t.text.toList ∨
      t.second ≠ .signedZero true ∧ ClockText t.text.toList := by
  have ⟨negative, u, hu, hsecond, _⟩ := ht
  cases negative with
  | false =>
    refine .inr ⟨?_, clockText_text hsecond⟩
    rw [hsecond, Binary64.signedZero]
    simp
  | true => exact .inl ⟨ht.eq_signedZero (by rw [hsecond]; rfl), minus_mem_text hsecond⟩

/-! ### Literals below zero -/

variable {s numeral : List Char} {d : Decimal}

theorem Seconds.isNonneg {x : Binary64} (h : Seconds s x) : x.IsNonneg :=
  Binary64.isNonneg_iff.2 ⟨h.isFinite, h.nonneg⟩

/-- A minus in front of a numeral rounds it as a negative number. -/
theorem literal_minus_iff (h : Decimal.Numeral numeral d) {x : Binary64} :
    Decimal.Literal ('-' :: numeral) x ↔ x = .ofDecimal true d := by
  have hread : Decimal.readBinary64 ('-' :: numeral) = some (.ofDecimal true d) :=
    Decimal.readBinary64_eq_some_iff.2 (.numeral .minus h (Decimal.isRounded_ofDecimal true d))
  rw [← Decimal.readBinary64_eq_some_iff, hread, Option.some_inj, eq_comm]

/-- After a minus sign only what is rounded to zero counts as seconds. -/
theorem seconds_minus_iff (h : Decimal.Numeral numeral d) {x : Binary64} :
    Seconds ('-' :: numeral) x ↔ x = .signedZero true ∧ d.value ≤ 1 / 2 ^ 1075 := by
  rw [← d.two_mul_unitsNum_le_iff]
  constructor
  · intro hx
    have hquot := (literal_minus_iff h).1 hx.literal
    rw [Binary64.ofDecimal_eq_ofQuotient] at hquot
    have hzero := hx.isNonneg.eq_signedZero
      (hquot ▸ Binary64.isNegative_ofQuotient true _ _)
    refine ⟨hzero, (nearestUnits_eq_zero_iff d.unitsDen_pos).1 ?_⟩
    rw [← Binary64.isZero_ofQuotient true, ← hquot, hzero]
    rfl
  · rintro ⟨rfl, hle⟩
    refine ⟨(literal_minus_iff h).2 ?_, rfl, ?_⟩
    · rw [Binary64.ofDecimal_eq_ofQuotient, Binary64.ofQuotient_eq_signedZero _ d.unitsDen_pos hle]
    · exact (Binary64.value_signedZero true).ge

/-- The seconds of a time were read from the last part of its text. -/
theorem seconds_of_parse {text : String} {t : Time} (h : parse text = .ok t) :
    ∃ s, (parts (Text.trim text.toList)).getLast? = some s ∧ Seconds s t.second := by
  by_cases hblank : Text.trim text.toList = []
  · rw [parse_of_trim_eq_nil hblank] at h
    obtain rfl := Except.ok.inj h
    rw [hblank]
    exact ⟨['0', '0'], rfl, readSeconds_eq_ok_iff.1 rfl⟩
  · have hcarries := (parse_eq_ok_iff_carries hblank).1 h
    generalize parts (Text.trim text.toList) = ps at hcarries
    cases hcarries with
    | seconds hs => exact ⟨_, rfl, hs⟩
    | minutes _ hs => exact ⟨_, rfl, hs⟩
    | hours _ _ hs => exact ⟨_, rfl, hs⟩

/-- The seconds are the negative zero exactly when the last part has a minus and a value so small
that it is rounded to zero. -/
theorem second_eq_signedZero_iff {text : String} {t : Time} (h : parse text = .ok t) :
    t.second = .signedZero true ↔
      ∃ numeral d, (parts (Text.trim text.toList)).getLast? = some ('-' :: numeral) ∧
        Decimal.Numeral numeral d ∧ d.value ≤ 1 / 2 ^ 1075 := by
  obtain ⟨s, hlast, hs⟩ := seconds_of_parse h
  constructor
  · intro hzero
    obtain ⟨sign, numeral, d, rfl, hsign, hnumeral, -⟩ := hs.literal.exists_numeral hs.isFinite
    rw [hzero] at hsign hs
    cases hsign
    exact ⟨numeral, d, hlast, hnumeral, ((seconds_minus_iff hnumeral).1 hs).2⟩
  · rintro ⟨numeral, d, hminus, hnumeral, -⟩
    rw [hlast] at hminus
    obtain rfl := Option.some.inj hminus
    exact ((seconds_minus_iff hnumeral).1 hs).1

/-- A text that is not blank is a time exactly when it has at most three parts and each may stand in
its place. -/
theorem exists_parse_iff_isGood {text : String} (hne : Text.trim text.toList ≠ []) :
    (∃ t, parse text = .ok t) ↔
      (parts (Text.trim text.toList)).length ≤ 3 ∧
        (∀ p ∈ (parts (Text.trim text.toList)).dropLast, IsGood 1 p) ∧
        ∀ p ∈ (parts (Text.trim text.toList)).getLast?, IsGood 0 p := by
  simp only [parse_eq_ok_iff_carries hne]
  constructor
  · rintro ⟨t, h⟩
    have hgood : ∀ {p : List Char} {n : UInt32}, Decimal.Natural p n.toNat → IsGood 1 p :=
      fun hn => (isGood_succ_iff 0).2 ⟨_, hn⟩
    generalize parts (Text.trim text.toList) = ps at h
    cases h with
    | seconds hs => simpa using ⟨_, hs⟩
    | minutes hm hs => simpa using ⟨hgood hm, _, hs⟩
    | hours hh hm hs => simpa using ⟨⟨hgood hh, hgood hm⟩, _, hs⟩
  · rintro ⟨hlength, hearlier, hlast⟩
    rcases parts_cases (Text.trim text.toList) with ⟨s, hps⟩ | ⟨m, s, hps⟩ | ⟨h, m, s, hps⟩ | hps
    · rw [hps] at hlast ⊢
      obtain ⟨x, hs⟩ := hlast s rfl
      exact ⟨_, .seconds hs⟩
    · rw [hps] at hearlier hlast ⊢
      obtain ⟨minute, hm⟩ := (isGood_succ_iff 0).1 (hearlier m (by simp))
      obtain ⟨x, hs⟩ := hlast s rfl
      exact ⟨_, .minutes hm hs⟩
    · rw [hps] at hearlier hlast ⊢
      obtain ⟨hour, hh⟩ := (isGood_succ_iff 0).1 (hearlier h (by simp))
      obtain ⟨minute, hm⟩ := (isGood_succ_iff 0).1 (hearlier m (by simp))
      obtain ⟨x, hs⟩ := hlast s rfl
      exact ⟨_, .hours hh hm hs⟩
    · omega

/-- A negative number of seconds is accepted only if it is rounded to zero.  The text of a time that
was read has the shape of a clock unless its seconds are the negative zero, and exactly then it
shows a minus. -/
theorem minus_shown_only_for_zero (text : String) :
    (∀ numeral d, (parts (Text.trim text.toList)).getLast? = some ('-' :: numeral) →
      Decimal.Numeral numeral d →
      ((∃ t, parse text = .ok t) ↔
        (parts (Text.trim text.toList)).length ≤ 3 ∧
          (∀ p ∈ (parts (Text.trim text.toList)).dropLast, IsGood 1 p) ∧ d.value ≤ 1 / 2 ^ 1075)) ∧
    (∀ t, parse text = .ok t →
      (ClockText t.text.toList ↔ t.second ≠ .signedZero true) ∧
      ('-' ∈ t.text.toList ↔ t.second = .signedZero true) ∧
      (t.second = .signedZero true ↔
        ∃ numeral d, (parts (Text.trim text.toList)).getLast? = some ('-' :: numeral) ∧
          Decimal.Numeral numeral d ∧ d.value ≤ 1 / 2 ^ 1075)) := by
  refine ⟨fun numeral d hlast hnumeral => ?_, fun t h => ⟨?_, ?_, second_eq_signedZero_iff h⟩⟩
  · have hne : Text.trim text.toList ≠ [] := by
      intro hnil
      rw [hnil] at hlast
      cases hlast
    -- behind a minus only the last part is in question, and it is good only if it is rounded to zero
    have hgood : IsGood 0 ('-' :: numeral) ↔ d.value ≤ 1 / 2 ^ 1075 := by
      simp only [IsGood, seconds_minus_iff hnumeral, exists_eq_left]
    rw [exists_parse_iff_isGood hne, hlast, ← hgood]
    simp
  · rcases second_cases (second_of_parse h) with ⟨hzero, hminus⟩ | ⟨hne, hclock⟩
    · exact iff_of_false (fun hclock => hclock.minus_not_mem hminus) fun hne => hne hzero
    · exact iff_of_true hclock hne
  · rcases second_cases (second_of_parse h) with ⟨hzero, hminus⟩ | ⟨hne, hclock⟩
    · exact iff_of_true hminus hzero
    · exact iff_of_false hclock.minus_not_mem hne

/-- A literal below zero that is accepted, and shown with its sign. -/
theorem tiny_negative_shown :
    ∃ t, parse "-1e-400" = .ok t ∧ t.text = "0:-0.00" ∧
      Decimal.Numeral "1e-400".toList ⟨1, -400⟩ ∧ 0 < (⟨1, -400⟩ : Decimal).value := by
  have hread : (parse "-1e-400").toOption.any (fun t => t.text == "0:-0.00") = true := by
    decide +kernel
  obtain ⟨t, ht, htext⟩ := exists_eq_ok_and hread
  refine ⟨t, ht, eq_of_beq htext, Decimal.readUnsigned_eq_some_iff.1 (by decide +kernel), ?_⟩
  exact mul_pos (Nat.cast_pos.2 Nat.one_pos) (zpow_pos (by norm_num) _)

end Time

end EditList
