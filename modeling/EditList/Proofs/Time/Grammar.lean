import EditList.Proofs.Decimal.Grammar
import EditList.Proofs.Text

/-!
# The grammar of times

A time is read from the parts between its colons, and what a part stands for depends on its distance from
the last one: seconds, minutes, hours.  `Carries` says which time the parts carry.  Parts are read from the
front, so of several bad parts the first one is named (`FirstBad`), with the unit of its place.

* `parse_follows_grammar`: a text is read exactly when its parts carry a time, and otherwise the error names
  the first bad part or, if there are too many parts, the whole text.  A leading part that stands for zero
  makes no difference.
-/

namespace EditList

/-! ### Numbers that are not below zero -/

namespace Binary64

/-- The comparison with zero by the library is the one by value. -/
theorem lt_zero_eq_false_iff {x : Binary64} (h : x.isFinite = true) :
    x.lt .zero = false ↔ 0 ≤ x.value := by
  obtain ⟨negative, u, hu, rfl⟩ := exists_of_isFinite h
  have hunit : (0 : ℝ) < unitsPerOne := Nat.cast_pos.2 unitsPerOne_pos
  rw [value_finite]
  cases negative with
  | false =>
    refine iff_of_true ?_ (div_nonneg (Nat.cast_nonneg u) hunit.le)
    simp [lt, rank?, zero, signedZero]
  | true =>
    rw [signed, if_pos rfl, neg_nonneg, div_le_iff₀ hunit, zero_mul]
    simp [lt, rank?, zero, signedZero]

theorem isNonneg_iff {x : Binary64} : x.IsNonneg ↔ x.isFinite = true ∧ 0 ≤ x.value := by
  constructor
  · rintro ⟨negative, u, hu, rfl, hzero⟩
    refine ⟨rfl, (lt_zero_eq_false_iff rfl).1 ?_⟩
    cases negative with
    | false => simp [lt, rank?, zero, signedZero]
    | true => simp [lt, rank?, zero, signedZero, hzero rfl]
  · rintro ⟨hfinite, hnonneg⟩
    exact isNonneg_of_isFinite hfinite ((lt_zero_eq_false_iff hfinite).2 hnonneg)

theorem IsNonneg.value_eq {x : Binary64} (hx : x.IsNonneg) :
    x.value = x.magnitude / unitsPerOne := by
  have hnonneg := (isNonneg_iff.1 hx).2
  obtain ⟨negative, u, hu, rfl, -⟩ := hx
  exact value_eq_of_nonneg hnonneg

end Binary64

namespace Time

/-! ### Parts -/

/-- The number of seconds that the last part gives: a literal that is rounded to a finite number not
below zero. -/
structure Seconds (part : List Char) (x : Binary64) : Prop where
  literal : Decimal.Literal part x
  isFinite : x.isFinite = true
  nonneg : 0 ≤ x.value

/-- Whether a part may stand at a distance from the last one. -/
def IsGood : ℕ → List Char → Prop
  | 0, part => ∃ x, Seconds part x
  | _ + 1, part => ∃ n ≤ 4294967295, Decimal.Natural part n

/-- The error that names a part at a distance from the last one. -/
def partError : ℕ → String → Error
  | 0 => .second
  | 1 => .minute
  | _ => .hour

/-- Whether an error names the first bad part. -/
def FirstBad (parts : List (List Char)) (e : Error) : Prop :=
  ∃ i part, parts[i]? = some part ∧ ¬ IsGood (parts.length - 1 - i) part ∧
    e = partError (parts.length - 1 - i) (String.ofList part) ∧
    ∀ j < i, ∀ earlier, parts[j]? = some earlier → IsGood (parts.length - 1 - j) earlier

/-- The time that parts carry. -/
inductive Carries : List (List Char) → Time → Prop
  | seconds {s : List Char} {x : Binary64} (hs : Seconds s x) : Carries [s] ⟨0, 0, x⟩
  | minutes {m s : List Char} {minute : UInt32} {x : Binary64}
    (hm : Decimal.Natural m minute.toNat) (hs : Seconds s x) : Carries [m, s] ⟨0, minute, x⟩
  | hours {h m s : List Char} {hour minute : UInt32} {x : Binary64}
    (hh : Decimal.Natural h hour.toNat) (hm : Decimal.Natural m minute.toNat) (hs : Seconds s x) :
    Carries [h, m, s] ⟨hour, minute, x⟩

variable {part : List Char}

theorem readSeconds_eq_ok_iff {x : Binary64} : readSeconds part = .ok x ↔ Seconds part x := by
  unfold readSeconds
  constructor
  · intro h
    split at h
    · next y hy =>
      split_ifs at h with hgood
      obtain rfl := Except.ok.inj h
      rw [Bool.and_eq_true, Bool.not_eq_true'] at hgood
      have hnonneg := (Binary64.lt_zero_eq_false_iff hgood.1).1 hgood.2
      exact ⟨Decimal.readBinary64_eq_some_iff.1 hy, hgood.1, hnonneg⟩
    · cases h
  · rintro ⟨hliteral, hfinite, hnonneg⟩
    rw [Decimal.readBinary64_eq_some_iff.2 hliteral]
    simp [hfinite, (Binary64.lt_zero_eq_false_iff hfinite).2 hnonneg]

/-- Bad seconds are named as they are written. -/
theorem readSeconds_eq_error_iff {e : Error} :
    readSeconds part = .error e ↔ ¬ IsGood 0 part ∧ e = .second (String.ofList part) := by
  have hnamed : ∀ {e}, readSeconds part = .error e → e = .second (String.ofList part) := by
    intro e h
    unfold readSeconds at h
    split at h
    · split_ifs at h
      exact (Except.error.inj h).symm
    · exact (Except.error.inj h).symm
  constructor
  · intro h
    refine ⟨?_, hnamed h⟩
    rintro ⟨x, hx⟩
    rw [readSeconds_eq_ok_iff.2 hx] at h
    cases h
  · rintro ⟨hbad, rfl⟩
    cases h : readSeconds part with
    | ok x => exact absurd ⟨x, readSeconds_eq_ok_iff.1 h⟩ hbad
    | error e => rw [hnamed h]

/-- Hours and minutes are natural numbers of 32 bits, with either error. -/
theorem readWhole_eq_ok_iff {error : String → Error} {n : UInt32} :
    readWhole error part = .ok n ↔ Decimal.Natural part n.toNat := by
  rw [← Decimal.readWord_eq_some_iff, readWhole]
  cases Decimal.readWord part with
  | none => simp
  | some k => simp

/-- A part before the last one may stand there exactly when it is a word. -/
theorem isGood_succ_iff (d : ℕ) : IsGood (d + 1) part ↔ ∃ n : UInt32, Decimal.Natural part n.toNat := by
  constructor
  · rintro ⟨n, hle, hn⟩
    refine ⟨UInt32.ofNat n, ?_⟩
    rwa [UInt32.toNat_ofNat_of_lt' (by rw [UInt32.size]; omega)]
  · rintro ⟨n, hn⟩
    have hlt := n.toNat_lt
    exact ⟨n.toNat, by omega, hn⟩

/-- Bad hours and minutes are named as they are written. -/
theorem readWhole_eq_error_iff {error : String → Error} {e : Error} (d : ℕ) :
    readWhole error part = .error e ↔ ¬ IsGood (d + 1) part ∧ e = error (String.ofList part) := by
  rw [isGood_succ_iff, readWhole]
  cases h : Decimal.readWord part with
  | none =>
    have hbad : ¬ ∃ n : UInt32, Decimal.Natural part n.toNat := by
      rintro ⟨n, hn⟩
      rw [Decimal.readWord_eq_some_iff.2 hn] at h
      cases h
    simp [hbad, eq_comm]
  | some n =>
    have hgood : ∃ n : UInt32, Decimal.Natural part n.toNat := ⟨n, Decimal.readWord_eq_some_iff.1 h⟩
    simp [hgood]

/-! ### The first bad part -/

theorem not_firstBad_nil {e : Error} : ¬ FirstBad [] e := by
  rintro ⟨i, part, hpart, -⟩
  simp at hpart

/-- The first bad part is the first part or comes after a good one. -/
theorem firstBad_cons {rest : List (List Char)} {e : Error} :
    FirstBad (part :: rest) e ↔
      ¬ IsGood rest.length part ∧ e = partError rest.length (String.ofList part) ∨
        IsGood rest.length part ∧ FirstBad rest e := by
  -- the distance from the last part does not change when the first part is taken away
  have hdistance : ∀ i, (part :: rest).length - 1 - (i + 1) = rest.length - 1 - i := by
    intro i
    rw [List.length_cons]
    omega
  constructor
  · rintro ⟨i, q, hq, hbad, he, hearlier⟩
    cases i with
    | zero =>
      obtain rfl := Option.some.inj hq
      exact .inl ⟨hbad, he⟩
    | succ i =>
      refine .inr ⟨hearlier 0 (Nat.succ_pos i) part rfl, i, q, by simpa using hq, ?_, ?_, ?_⟩
      · rwa [hdistance] at hbad
      · rwa [hdistance] at he
      · intro j hj p hp
        rw [← hdistance]
        exact hearlier (j + 1) (Nat.succ_lt_succ hj) p (by simpa using hp)
  · rintro (⟨hbad, he⟩ | ⟨hgood, i, q, hq, hbad, he, hearlier⟩)
    · exact ⟨0, part, rfl, hbad, he, fun j hj => absurd hj (Nat.not_lt_zero j)⟩
    · refine ⟨i + 1, q, by simpa using hq, ?_, ?_, ?_⟩
      · rwa [hdistance]
      · rwa [hdistance]
      · intro j hj p hp
        cases j with
        | zero =>
          obtain rfl := Option.some.inj hp
          exact hgood
        | succ j =>
          rw [hdistance]
          exact hearlier j (Nat.lt_of_succ_lt_succ hj) p (by simpa using hp)

/-! ### Reading the parts -/

variable {text : String} {h m s : List Char}

theorem parse_of_trim_eq_nil (hblank : Text.trim text.toList = []) : parse text = .ok zero := by
  rw [parse]
  simp [hblank]

theorem parse_of_one (hne : Text.trim text.toList ≠ [])
    (hparts : parts (Text.trim text.toList) = [s]) :
    parse text = (readSeconds s >>= fun x => .ok ⟨0, 0, x⟩) := by
  rw [parse]
  simp only [List.isEmpty_iff, hne, hparts]
  rfl

theorem parse_of_two (hne : Text.trim text.toList ≠ [])
    (hparts : parts (Text.trim text.toList) = [m, s]) :
    parse text = (readWhole .minute m >>= fun minute =>
      readSeconds s >>= fun x => .ok ⟨0, minute, x⟩) := by
  rw [parse]
  simp only [List.isEmpty_iff, hne, hparts]
  rfl

theorem parse_of_three (hne : Text.trim text.toList ≠ [])
    (hparts : parts (Text.trim text.toList) = [h, m, s]) :
    parse text = (readWhole .hour h >>= fun hour => readWhole .minute m >>= fun minute =>
      readSeconds s >>= fun x => .ok ⟨hour, minute, x⟩) := by
  rw [parse]
  simp only [List.isEmpty_iff, hne, hparts]
  rfl

/-- With four parts or more the text as a whole is at fault. -/
theorem parse_of_surplus (hne : Text.trim text.toList ≠ [])
    (hparts : 3 < (parts (Text.trim text.toList)).length) :
    parse text = .error (.format (String.ofList (Text.trim text.toList))) := by
  rw [parse]
  simp only [List.isEmpty_iff, hne]
  generalize parts (Text.trim text.toList) = ps at hparts ⊢
  rcases ps with _ | ⟨_, _ | ⟨_, _ | ⟨_, _ | ⟨_, _⟩⟩⟩⟩
  · simp at hparts
  · simp at hparts
  · simp at hparts
  · simp at hparts
  · rfl

theorem parts_cases (cs : List Char) :
    (∃ s, parts cs = [s]) ∨ (∃ m s, parts cs = [m, s]) ∨ (∃ h m s, parts cs = [h, m, s]) ∨
      3 < (parts cs).length := by
  have hne : parts cs ≠ [] := by
    rw [parts, ne_eq, List.map_eq_nil_iff]
    exact List.splitOn_ne_nil ':' cs
  match parts cs, hne with
  | [s], _ => exact .inl ⟨s, rfl⟩
  | [m, s], _ => exact .inr (.inl ⟨m, s, rfl⟩)
  | [h, m, s], _ => exact .inr (.inr (.inl ⟨h, m, s, rfl⟩))
  | _ :: _ :: _ :: _ :: _, _ => exact .inr (.inr (.inr (by simp)))

/-- A text that is not blank is read as the time that its parts carry. -/
theorem parse_eq_ok_iff_carries (hne : Text.trim text.toList ≠ []) {t : Time} :
    parse text = .ok t ↔ Carries (parts (Text.trim text.toList)) t := by
  rcases parts_cases (Text.trim text.toList) with ⟨s, hparts⟩ | ⟨m, s, hparts⟩ | ⟨h, m, s, hparts⟩ |
    hparts
  · rw [parse_of_one hne hparts, hparts, bind_eq_ok]
    constructor
    · rintro ⟨x, hx, ht⟩
      obtain rfl := Except.ok.inj ht
      exact .seconds (readSeconds_eq_ok_iff.1 hx)
    · rintro ⟨hs⟩
      exact ⟨_, readSeconds_eq_ok_iff.2 hs, rfl⟩
  · rw [parse_of_two hne hparts, hparts, bind_eq_ok]
    constructor
    · rintro ⟨minute, hminute, ht⟩
      obtain ⟨x, hx, ht⟩ := bind_eq_ok.1 ht
      obtain rfl := Except.ok.inj ht
      exact .minutes (readWhole_eq_ok_iff.1 hminute) (readSeconds_eq_ok_iff.1 hx)
    · rintro (_ | ⟨hm, hs⟩)
      exact ⟨_, readWhole_eq_ok_iff.2 hm, bind_eq_ok.2 ⟨_, readSeconds_eq_ok_iff.2 hs, rfl⟩⟩
  · rw [parse_of_three hne hparts, hparts, bind_eq_ok]
    constructor
    · rintro ⟨hour, hhour, ht⟩
      obtain ⟨minute, hminute, ht⟩ := bind_eq_ok.1 ht
      obtain ⟨x, hx, ht⟩ := bind_eq_ok.1 ht
      obtain rfl := Except.ok.inj ht
      exact .hours (readWhole_eq_ok_iff.1 hhour) (readWhole_eq_ok_iff.1 hminute)
        (readSeconds_eq_ok_iff.1 hx)
    · rintro (_ | _ | ⟨hh, hm, hs⟩)
      exact ⟨_, readWhole_eq_ok_iff.2 hh, bind_eq_ok.2 ⟨_, readWhole_eq_ok_iff.2 hm,
        bind_eq_ok.2 ⟨_, readSeconds_eq_ok_iff.2 hs, rfl⟩⟩⟩
  · rw [parse_of_surplus hne hparts]
    refine iff_of_false (by simp) fun hcarries => ?_
    generalize parts (Text.trim text.toList) = ps at hparts hcarries
    cases hcarries <;> simp at hparts

/-- A failure that does not depend on the value before it. -/
theorem bind_eq_error_of_ok {ε α β : Type} {x : Except ε α} {f : α → Except ε β} {e : ε} {p : Prop}
    (hf : ∀ a, f a = .error e ↔ p) :
    x >>= f = .error e ↔ x = .error e ∨ (∃ a, x = .ok a) ∧ p := by
  rw [bind_eq_error, ← exists_and_right]
  simp only [hf]

/-- In the last place only the seconds can be bad. -/
theorem seconds_bind_eq_error_iff {f : Binary64 → Time} {e : Error} :
    (readSeconds s >>= fun x => .ok (f x)) = .error e ↔ FirstBad [s] e := by
  rw [bind_eq_error_of_ok (fun x => iff_of_false (by simp) not_false), firstBad_cons,
    readSeconds_eq_error_iff]
  simp [not_firstBad_nil, partError]

/-- A bad part in front comes before any bad part behind it. -/
theorem whole_bind_eq_error_iff (error : String → Error) {f : UInt32 → Except Error Time} {e : Error}
    {rest : List (List Char)} {d : ℕ} (hd : rest.length = d + 1) (herror : partError (d + 1) = error)
    (hf : ∀ n, f n = .error e ↔ FirstBad rest e) :
    (readWhole error m >>= f) = .error e ↔ FirstBad (m :: rest) e := by
  have hgood : (∃ n, readWhole error m = .ok n) ↔ IsGood (d + 1) m := by
    simp only [readWhole_eq_ok_iff, isGood_succ_iff]
  rw [bind_eq_error_of_ok hf, firstBad_cons, hd, herror, hgood, readWhole_eq_error_iff d]

/-- A text that is not blank is refused for having too many parts, or else for its first bad part. -/
theorem parse_eq_error_iff (hne : Text.trim text.toList ≠ []) {e : Error} :
    parse text = .error e ↔
      3 < (parts (Text.trim text.toList)).length ∧
          e = .format (String.ofList (Text.trim text.toList)) ∨
        (parts (Text.trim text.toList)).length ≤ 3 ∧ FirstBad (parts (Text.trim text.toList)) e := by
  rcases parts_cases (Text.trim text.toList) with ⟨s, hparts⟩ | ⟨m, s, hparts⟩ | ⟨h, m, s, hparts⟩ |
    hparts
  · rw [parse_of_one hne hparts, hparts, seconds_bind_eq_error_iff]
    simp
  · rw [parse_of_two hne hparts, hparts,
      whole_bind_eq_error_iff .minute rfl rfl fun _ => seconds_bind_eq_error_iff]
    simp
  · rw [parse_of_three hne hparts, hparts,
      whole_bind_eq_error_iff .hour rfl rfl fun _ =>
        whole_bind_eq_error_iff .minute rfl rfl fun _ => seconds_bind_eq_error_iff]
    simp
  · rw [parse_of_surplus hne hparts]
    simp [hparts, eq_comm]

/-! ### Parts joined by colons -/

theorem mem_intercalate_colon {ps : List (List Char)} {c : Char} (hc : c ∈ [':'].intercalate ps) :
    c = ':' ∨ ∃ p ∈ ps, c ∈ p := by
  induction ps with
  | nil => cases hc
  | cons p ps ih =>
    cases ps with
    | nil => exact .inr ⟨p, List.mem_cons_self, by simpa using hc⟩
    | cons q qs =>
      rw [List.intercalate_cons_cons, List.mem_append, List.mem_append, List.mem_singleton] at hc
      rcases hc with (hc | hc) | hc
      · exact .inr ⟨p, List.mem_cons_self, hc⟩
      · exact .inl hc
      · exact (ih hc).imp_right fun ⟨r, hr, hcr⟩ => ⟨r, List.mem_cons_of_mem p hr, hcr⟩

theorem Seconds.isNumeralText {x : Binary64} (h : Seconds s x) : s ≠ [] ∧ Decimal.IsNumeralText s := by
  obtain ⟨sign, numeral, d, rfl, hsign, hnumeral, -⟩ := h.literal.exists_numeral h.isFinite
  exact ⟨List.append_ne_nil_of_right_ne_nil _ hnumeral.ne_nil,
    Decimal.isNumeralText_append.2 ⟨hsign.isNumeralText, hnumeral.isNumeralText⟩⟩

/-- The parts of a time are not empty and have only the characters of numerals, which are neither
blanks nor colons. -/
theorem Carries.isNumeralText {ps : List (List Char)} {t : Time} (h : Carries ps t) :
    ∀ p ∈ ps, p ≠ [] ∧ Decimal.IsNumeralText p := by
  cases h with
  | seconds hs => simpa using hs.isNumeralText
  | minutes hm hs => simpa using ⟨⟨hm.ne_nil, hm.isNumeralText⟩, hs.isNumeralText⟩
  | hours hh hm hs =>
    simpa using ⟨⟨hh.ne_nil, hh.isNumeralText⟩, ⟨hm.ne_nil, hm.isNumeralText⟩, hs.isNumeralText⟩

theorem not_isBlank_of_isDigit {c : Char} (h : c.isDigit = true) :
    Text.isBlank c = false ∧ c ≠ ':' := by
  have hrange : 48 ≤ c.toNat ∧ c.toNat ≤ 57 := by
    simpa [Char.isDigit, UInt32.le_iff_toNat_le] using h
  constructor
  · simp only [Text.isBlank, Bool.or_eq_false_iff, Bool.and_eq_false_iff, decide_eq_false_iff_not,
      beq_eq_false_iff_ne]
    omega
  · rintro rfl
    exact absurd h (by decide)

/-- The characters of numerals are neither blanks nor colons. -/
theorem not_isBlank_of_isNumeralText (h : Decimal.IsNumeralText part) {c : Char} (hc : c ∈ part) :
    Text.isBlank c = false ∧ c ≠ ':' := by
  rcases h c hc with hdigit | hmem
  · exact not_isBlank_of_isDigit hdigit
  · simp only [List.mem_cons, List.not_mem_nil, or_false] at hmem
    rcases hmem with rfl | rfl | rfl | rfl | rfl <;> decide

/-- Parts that carry a time are read as that time when colons join them. -/
theorem Carries.parse_intercalate {ps : List (List Char)} {t : Time} (h : Carries ps t) :
    parse (String.ofList ([':'].intercalate ps)) = .ok t := by
  have hplain := h.isNumeralText
  have hne : ps ≠ [] := by
    rintro rfl
    cases h
  -- numerals hold neither blanks nor colons, so trimming and splitting give the parts back
  have hblank : ∀ c ∈ [':'].intercalate ps, Text.isBlank c = false := by
    intro c hc
    rcases mem_intercalate_colon hc with rfl | ⟨p, hp, hcp⟩
    · decide
    · exact (not_isBlank_of_isNumeralText (hplain p hp).2 hcp).1
  have htrim : Text.trim ([':'].intercalate ps) = [':'].intercalate ps :=
    Text.trim_eq_self (fun c hc => hblank c (List.mem_of_mem_head? hc))
      fun c hc => hblank c (List.mem_of_mem_getLast? hc)
  have hparts : parts ([':'].intercalate ps) = ps := by
    rw [parts, List.splitOn_intercalate _
      (fun p hp hmem => (not_isBlank_of_isNumeralText (hplain p hp).2 hmem).2 rfl) hne]
    have hmap : ∀ p ∈ ps, (if p.isEmpty then ['0', '0'] else p) = id p :=
      fun p hp => if_neg (by simpa using (hplain p hp).1)
    rw [List.map_congr_left hmap, List.map_id]
  have htext : Text.trim (String.ofList ([':'].intercalate ps)).toList ≠ [] := by
    rw [String.toList_ofList, htrim]
    intro hnil
    rw [hnil] at hparts
    rw [← hparts] at hnil
    exact absurd hnil (by decide)
  rw [parse_eq_ok_iff_carries htext, String.toList_ofList, htrim, hparts]
  exact h

/-! ### A leading part that stands for zero -/

/-- A part in front of a colon is split off; an empty one counts as `00`. -/
theorem parts_append_colon {lead : List Char} (hlead : ':' ∉ lead) (cs : List Char) :
    parts (lead ++ ':' :: cs) = (if lead.isEmpty then ['0', '0'] else lead) :: parts cs := by
  rw [parts, List.splitOn_append_cons_self_of_not_mem hlead, List.map_cons, parts]

theorem length_parts (cs : List Char) : (parts cs).length = cs.count ':' + 1 := by
  rw [parts, List.length_map, Text.length_splitOn]

theorem trim_append_colon {lead cs : List Char}
    (hhead : ∀ c ∈ (lead ++ ':' :: cs).head?, Text.isBlank c = false) (htrim : Text.trim cs = cs) :
    Text.trim (lead ++ ':' :: cs) = lead ++ ':' :: cs := by
  have hlast : ∀ c ∈ cs.getLast?, Text.isBlank c = false := by
    rw [← htrim]
    exact Text.not_isBlank_getLast_trimEnd _
  apply Text.trim_eq_self hhead
  exact Text.not_isBlank_getLast_append_cons (by decide) lead hlast

/-- The parts before a colon that stand for zero. -/
def zeroLeads : List (List Char) :=
  [['0'], [], ['+', '0']]

theorem readWhole_zeroLead {lead : List Char} (hlead : lead ∈ zeroLeads) (error : String → Error) :
    readWhole error (if lead.isEmpty then ['0', '0'] else lead) = .ok 0 := by
  simp only [zeroLeads, List.mem_cons, List.not_mem_nil, or_false] at hlead
  rcases hlead with rfl | rfl | rfl <;> rfl

/-- A zero in front, or a colon alone, does not change the time, nor whether and how it is refused. -/
theorem parse_zeroLead (lead : List Char) (hlead : lead ∈ zeroLeads)
    (htrim : Text.trim text.toList = text.toList) (hcount : text.toList.count ':' ≤ 1) :
    parse (String.ofList (lead ++ [':']) ++ text) = parse text := by
  have hplain : ':' ∉ lead ∧ ∀ cs, ∀ c ∈ (lead ++ ':' :: cs).head?, Text.isBlank c = false := by
    simp only [zeroLeads, List.mem_cons, List.not_mem_nil, or_false] at hlead
    rcases hlead with rfl | rfl | rfl <;> refine ⟨by decide, fun cs c hc => ?_⟩ <;>
      obtain rfl := Option.some.inj hc <;> rfl
  have htext : (String.ofList (lead ++ [':']) ++ text).toList = lead ++ ':' :: text.toList := by
    simp
  have htrimmed := trim_append_colon (hplain.2 text.toList) htrim
  have hne : Text.trim (String.ofList (lead ++ [':']) ++ text).toList ≠ [] := by
    rw [htext, htrimmed]
    simp
  have hparts : parts (Text.trim (String.ofList (lead ++ [':']) ++ text).toList) =
      (if lead.isEmpty then ['0', '0'] else lead) :: parts (Text.trim text.toList) := by
    rw [htext, htrimmed, parts_append_colon hplain.1, htrim]
  have hzero := readWhole_zeroLead hlead
  have hlength := length_parts (Text.trim text.toList)
  rw [← htrim] at hcount
  -- with one part more the same readers are applied, after a zero that changes nothing
  rcases parts_cases (Text.trim text.toList) with ⟨s, hs⟩ | ⟨m, s, hs⟩ | ⟨h, m, s, hs⟩ | hs
  · rw [hs] at hparts
    rw [parse_of_two hne hparts, hzero]
    by_cases hblank : Text.trim text.toList = []
    · rw [hblank] at hs
      -- a blank text has one empty part, which counts as zero seconds
      obtain rfl : ['0', '0'] = s := List.head_eq_of_cons_eq hs
      rw [parse_of_trim_eq_nil hblank]
      rfl
    · rw [parse_of_one hblank hs]
      rfl
  · rw [hs] at hparts
    have hblank : Text.trim text.toList ≠ [] := by
      intro h
      rw [h] at hs
      cases hs
    rw [parse_of_three hne hparts, hzero, parse_of_two hblank hs]
    rfl
  · rw [hs] at hlength
    simp only [List.length_cons, List.length_nil] at hlength
    omega
  · omega

/-! ### The grammar -/

/-- Which texts are times, and which times they are.  A blank text is zero, and any other text is
the time that its parts carry; otherwise it is refused for having more than three parts or for its
first bad part, which is named as it is written.  A leading zero part, which may be empty or signed,
makes no difference. -/
theorem parse_follows_grammar (text : String) :
    (∀ t, parse text = .ok t ↔ Text.trim text.toList = [] ∧ t = zero ∨
      Text.trim text.toList ≠ [] ∧ Carries (parts (Text.trim text.toList)) t) ∧
    (∀ e, parse text = .error e ↔ Text.trim text.toList ≠ [] ∧
      (3 < (parts (Text.trim text.toList)).length ∧
          e = .format (String.ofList (Text.trim text.toList)) ∨
        (parts (Text.trim text.toList)).length ≤ 3 ∧ FirstBad (parts (Text.trim text.toList)) e)) ∧
    (Text.trim text.toList = text.toList → text.toList.count ':' ≤ 1 →
      ∀ lead ∈ ["0:", ":", "+0:"], parse (lead ++ text) = parse text) := by
  refine ⟨fun t => ?_, fun e => ?_, fun htrim hcount lead hlead => ?_⟩
  · by_cases hblank : Text.trim text.toList = []
    · rw [parse_of_trim_eq_nil hblank]
      simp [hblank, eq_comm]
    · rw [parse_eq_ok_iff_carries hblank]
      simp [hblank]
  · by_cases hblank : Text.trim text.toList = []
    · rw [parse_of_trim_eq_nil hblank]
      simp [hblank]
    · rw [parse_eq_error_iff hblank]
      simp [hblank]
  · simp only [List.mem_cons, List.not_mem_nil, or_false] at hlead
    rcases hlead with rfl | rfl | rfl
    · exact parse_zeroLead ['0'] (by decide) htrim hcount
    · exact parse_zeroLead [] (by decide) htrim hcount
    · exact parse_zeroLead ['+', '0'] (by decide) htrim hcount

end Time

end EditList
