import EditList.Proofs.Binary64.Nearest
import EditList.Proofs.ExactOffset

/-!
# The grammar of number literals

The written forms of numbers as a grammar: one relation for each kind of phrase, between a text and what
it stands for.  The value of a numeral is exact, and `Binary64.IsRounded` says what becomes of it.

* `readWord_eq_some_iff`: what is read as a 32-bit natural.
* `readBinary64_eq_some_iff`: what is read as a binary64 number.

A reader takes the longest run of digits, and the grammar allows no other reading: what follows a run in
a derivation does not start with a digit.
-/

namespace EditList.Decimal

/-! ### Phrases -/

/-- ASCII digits, possibly none. -/
def IsDigitRun (cs : List Char) : Prop :=
  ∀ c ∈ cs, c.isDigit = true

/-- An optional sign, and whether it is a minus. -/
inductive Sign : List Char → Bool → Prop
  | absent : Sign [] false
  | plus : Sign ['+'] false
  | minus : Sign ['-'] true

/-- Digits, at least one, after an optional plus sign. -/
inductive Natural : List Char → ℕ → Prop
  | mk {sign digits : List Char} (hsign : Sign sign false) (hrun : IsDigitRun digits)
    (hne : digits ≠ []) : Natural (sign ++ digits) (valueOf digits)

/-- Digits with an optional point, at least one digit in all. -/
inductive Mantissa : List Char → Decimal → Prop
  | whole {digits : List Char} (hrun : IsDigitRun digits) (hne : digits ≠ []) :
    Mantissa digits ⟨valueOf digits, 0⟩
  | point {digits fraction : List Char} (hrun : IsDigitRun digits) (hfraction : IsDigitRun fraction)
    (hne : digits ++ fraction ≠ []) :
    Mantissa (digits ++ '.' :: fraction) ⟨valueOf (digits ++ fraction), -fraction.length⟩

/-- An optional exponent: the letter `e` in either case, an optional sign and digits. -/
inductive Exponent : List Char → ℤ → Prop
  | absent : Exponent [] 0
  | given {mark : Char} {sign digits : List Char} {negative : Bool} (hmark : mark = 'e' ∨ mark = 'E')
    (hsign : Sign sign negative) (hrun : IsDigitRun digits) (hne : digits ≠ []) :
    Exponent (mark :: (sign ++ digits)) (if negative then -(valueOf digits : ℤ) else valueOf digits)

/-- A numeral without a sign, and its exact value. -/
inductive Numeral : List Char → Decimal → Prop
  | mk {mantissa exponent : List Char} {d : Decimal} {x : ℤ} (hmantissa : Mantissa mantissa d)
    (hexponent : Exponent exponent x) :
    Numeral (mantissa ++ exponent) ⟨d.digits, x + d.exponent⟩

/-- The literals of binary64 numbers, and what they are rounded to. -/
inductive Literal : List Char → Binary64 → Prop
  | nan {sign word : List Char} {negative : Bool} (hsign : Sign sign negative)
    (hword : word.map Char.toLower = "nan".toList) : Literal (sign ++ word) .nan
  | infinite {sign word : List Char} {negative : Bool} (hsign : Sign sign negative)
    (hword : word.map Char.toLower = "inf".toList ∨ word.map Char.toLower = "infinity".toList) :
    Literal (sign ++ word) (.infinite negative)
  | numeral {sign numeral : List Char} {negative : Bool} {d : Decimal} {x : Binary64}
    (hsign : Sign sign negative) (hnumeral : Numeral numeral d)
    (hround : Binary64.IsRounded negative (d.value : ℚ) x) : Literal (sign ++ numeral) x

/-! ### Digits and signs -/

variable {cs ds rest : List Char}

theorem IsDigitRun.not_mem (h : IsDigitRun ds) {c : Char} (hc : c.isDigit = false) : c ∉ ds := by
  intro hmem
  simp [h c hmem] at hc

theorem isDigitRun_append : IsDigitRun (cs ++ ds) ↔ IsDigitRun cs ∧ IsDigitRun ds :=
  List.forall_mem_append

theorem isDigitRun_takeWhile (cs : List Char) : IsDigitRun (cs.takeWhile Char.isDigit) :=
  List.all_eq_true.1 List.all_takeWhile

theorem readDigits_eq_some_iff {n : ℕ} :
    readDigits cs = some n ↔ IsDigitRun cs ∧ cs ≠ [] ∧ valueOf cs = n := by
  rw [readDigits]
  split_ifs with h
  · refine iff_of_false (by simp) ?_
    rintro ⟨hrun, hne, -⟩
    have hall : cs.all Char.isDigit = true := List.all_eq_true.2 hrun
    simp [hall, hne] at h
  · rw [Bool.or_eq_true, Bool.not_eq_true', not_or, List.isEmpty_iff, Bool.not_eq_false,
      List.all_eq_true] at h
    rw [Option.some_inj]
    exact ⟨fun heq => ⟨h.2, h.1, heq⟩, fun heq => heq.2.2⟩

theorem spanDigits_append (h : IsDigitRun ds) (hrest : ∀ c ∈ rest.head?, c.isDigit = false) :
    spanDigits (ds ++ rest) = (ds, rest) := by
  have hstop : rest.takeWhile Char.isDigit = [] ∧ rest.dropWhile Char.isDigit = rest := by
    cases rest with
    | nil => exact ⟨rfl, rfl⟩
    | cons c cs =>
      have hc : ¬ c.isDigit = true := by simp [hrest c rfl]
      exact ⟨List.takeWhile_cons_of_neg hc, List.dropWhile_cons_of_neg hc⟩
  rw [spanDigits, List.takeWhile_append_of_pos h, List.dropWhile_append_of_pos h, hstop.1, hstop.2,
    List.append_nil]

theorem spanDigits_point (h : IsDigitRun ds) (tail : List Char) :
    spanDigits (ds ++ '.' :: tail) = (ds, '.' :: tail) := by
  apply spanDigits_append h
  intro c hc
  obtain rfl := Option.some.inj hc
  rfl

theorem exists_sign (cs : List Char) :
    ∃ sign, Sign sign (splitSign cs).1 ∧ cs = sign ++ (splitSign cs).2 := by
  unfold splitSign
  split
  · exact ⟨['+'], .plus, rfl⟩
  · exact ⟨['-'], .minus, rfl⟩
  · exact ⟨[], .absent, rfl⟩

theorem sign_minus (negative : Bool) : Sign (if negative then ['-'] else []) negative := by
  cases negative with
  | false => exact .absent
  | true => exact .minus

/-- The sign is split off if the rest does not look like a second one. -/
theorem splitSign_append {sign : List Char} {negative : Bool} (h : Sign sign negative)
    (hrest : ∀ c ∈ rest.head?, c ≠ '+' ∧ c ≠ '-') : splitSign (sign ++ rest) = (negative, rest) := by
  cases h with
  | absent =>
    rw [List.nil_append]
    unfold splitSign
    split
    · exact absurd rfl (hrest _ rfl).1
    · exact absurd rfl (hrest _ rfl).2
    · rfl
  | plus => rfl
  | minus => rfl

theorem IsDigitRun.head_ne_sign (h : IsDigitRun ds) : ∀ c ∈ ds.head?, c ≠ '+' ∧ c ≠ '-' := by
  intro c hc
  have hdigit := h c (List.mem_of_mem_head? hc)
  constructor <;> rintro rfl <;> exact absurd hdigit (by decide)

/-! ### Naturals -/

theorem natural?_eq_some_iff {n : ℕ} : natural? cs = some n ↔ Natural cs n := by
  unfold natural?
  constructor
  · intro h
    split at h
    · obtain ⟨hrun, hne, rfl⟩ := readDigits_eq_some_iff.1 h
      exact .mk .plus hrun hne
    · obtain ⟨hrun, hne, rfl⟩ := readDigits_eq_some_iff.1 h
      exact .mk .absent hrun hne
  · rintro ⟨hsign, hrun, hne⟩
    cases hsign with
    | absent =>
      rw [List.nil_append]
      split
      · exact absurd rfl (hrun.head_ne_sign _ rfl).1
      · exact readDigits_eq_some_iff.2 ⟨hrun, hne, rfl⟩
    | plus => exact readDigits_eq_some_iff.2 ⟨hrun, hne, rfl⟩

/-- A 32-bit word is a natural number that fits. -/
theorem readWord_eq_some_iff {n : UInt32} : readWord cs = some n ↔ Natural cs n.toNat := by
  rw [← natural?_eq_some_iff]
  constructor
  · exact natural?_of_readWord
  · intro h
    have hn : n.toNat < twoPow 32 := n.toNat_lt
    rw [readWord_eq_bind, h, Option.bind_some, if_pos hn, Nat.toUInt32_eq, UInt32.ofNat_toNat]

/-! ### Numerals -/

/-- An exponent that is not empty needs its letter. -/
theorem readExponent_cons (mark : Char) (tail : List Char) :
    readExponent (mark :: tail) =
      if mark = 'e' ∨ mark = 'E' then
        (readDigits (splitSign tail).2).map fun n : ℕ =>
          if (splitSign tail).1 then -(n : ℤ) else n
      else none := by
  rw [readExponent]
  obtain ⟨negative, body⟩ := splitSign tail
  cases hbody : readDigits body <;> simp only [hbody] <;> rfl

theorem readExponent_eq_some_iff {x : ℤ} : readExponent cs = some x ↔ Exponent cs x := by
  constructor
  · intro h
    cases cs with
    | nil =>
      obtain rfl := Option.some.inj h
      exact .absent
    | cons mark tail =>
      rw [readExponent_cons, Option.ite_none_right_eq_some] at h
      obtain ⟨hmark, h⟩ := h
      obtain ⟨n, hn, rfl⟩ := Option.map_eq_some_iff.1 h
      obtain ⟨hrun, hne, rfl⟩ := readDigits_eq_some_iff.1 hn
      obtain ⟨sign, hsign, htail⟩ := exists_sign tail
      have hgiven := Exponent.given hmark hsign hrun hne
      rwa [← htail] at hgiven
  · intro h
    cases h with
    | absent => rfl
    | given hmark hsign hrun hne =>
      rw [readExponent_cons, if_pos hmark, splitSign_append hsign hrun.head_ne_sign,
        readDigits_eq_some_iff.2 ⟨hrun, hne, rfl⟩, Option.map_some]

/-- An exponent starts with neither a digit nor a point. -/
theorem Exponent.head {x : ℤ} (h : Exponent cs x) : ∀ c ∈ cs.head?, c.isDigit = false ∧ c ≠ '.' := by
  intro c hc
  cases h with
  | absent => cases hc
  | given hmark =>
    obtain rfl := Option.some.inj hc
    rcases hmark with rfl | rfl <;> decide

theorem spanDigits_fst_append_snd (cs : List Char) : (spanDigits cs).1 ++ (spanDigits cs).2 = cs :=
  List.takeWhile_append_dropWhile

/-- A numeral without a point: the exponent follows the digits. -/
theorem readUnsigned_of_whole (h : spanDigits cs = (ds, rest)) (hpoint : ∀ c ∈ rest.head?, c ≠ '.') :
    readUnsigned cs =
      if ds = [] then none else (readExponent rest).map fun x => ⟨valueOf ds, x⟩ := by
  rw [readUnsigned, h]
  dsimp only
  split
  · exact absurd rfl (hpoint _ rfl)
  · simp

/-- A numeral with a point: the digits after it lower the exponent. -/
theorem readUnsigned_of_point {fs tail : List Char} (h : spanDigits cs = (ds, '.' :: tail))
    (htail : spanDigits tail = (fs, rest)) :
    readUnsigned cs =
      if ds ++ fs = [] then none
      else (readExponent rest).map fun x => ⟨valueOf (ds ++ fs), x - fs.length⟩ := by
  rw [readUnsigned, h]
  simp [htail]

/-- Reading a numeral follows its grammar, both ways, so each numeral has one value. -/
theorem readUnsigned_eq_some_iff {d : Decimal} : readUnsigned cs = some d ↔ Numeral cs d := by
  constructor
  · intro h
    obtain ⟨ds, rest, hspan⟩ : ∃ ds rest, spanDigits cs = (ds, rest) := ⟨_, _, rfl⟩
    have hcs := spanDigits_fst_append_snd cs
    have hrun : IsDigitRun ds := by
      rw [← (Prod.mk.inj hspan).1]
      exact isDigitRun_takeWhile cs
    rw [hspan] at hcs
    -- what stands behind the first digits decides whether there is a point
    by_cases hpoint : ∀ c ∈ rest.head?, c ≠ '.'
    · rw [readUnsigned_of_whole hspan hpoint] at h
      split_ifs at h with hne
      obtain ⟨x, hx, rfl⟩ := Option.map_eq_some_iff.1 h
      rw [← hcs, ← Int.add_zero x]
      exact .mk (.whole hrun hne) (readExponent_eq_some_iff.1 hx)
    · push Not at hpoint
      obtain ⟨c, hc, rfl⟩ := hpoint
      obtain ⟨tail, rfl⟩ := List.head?_eq_some_iff.1 hc
      obtain ⟨fs, ends, htail⟩ : ∃ fs ends, spanDigits tail = (fs, ends) := ⟨_, _, rfl⟩
      have hsplit := spanDigits_fst_append_snd tail
      have hfraction : IsDigitRun fs := by
        rw [← (Prod.mk.inj htail).1]
        exact isDigitRun_takeWhile tail
      rw [htail] at hsplit
      rw [readUnsigned_of_point hspan htail] at h
      split_ifs at h with hne
      obtain ⟨x, hx, rfl⟩ := Option.map_eq_some_iff.1 h
      have hnumeral := Numeral.mk (.point hrun hfraction hne) (readExponent_eq_some_iff.1 hx)
      rwa [List.append_assoc, List.cons_append, hsplit, hcs] at hnumeral
  · rintro ⟨hmantissa, hexponent⟩
    -- an exponent starts neither with a digit nor with a point, so the mantissa ends before it
    have hread := readExponent_eq_some_iff.2 hexponent
    cases hmantissa with
    | whole hrun hne =>
      have hspan := spanDigits_append hrun fun c hc => (hexponent.head c hc).1
      rw [readUnsigned_of_whole hspan fun c hc => (hexponent.head c hc).2, if_neg hne, hread,
        Option.map_some, Int.add_zero]
    | point hrun hfraction hne =>
      have htail := spanDigits_append hfraction fun c hc => (hexponent.head c hc).1
      rw [List.append_assoc, List.cons_append, readUnsigned_of_point (spanDigits_point hrun _) htail,
        if_neg hne, hread, Option.map_some, Int.sub_eq_add_neg]

/-! ### Binary64 literals -/

theorem cast_value (d : Decimal) : ((d.value : ℚ) : ℝ) = d.unitsNum / d.unitsDen / unitsPerOne := by
  have hunit : (unitsPerOne : ℝ) ≠ 0 := Nat.cast_ne_zero.2 unitsPerOne_pos.ne'
  have hquot := congrArg (Rat.cast : ℚ → ℝ) d.unitsNum_div_unitsDen
  push_cast at hquot
  rw [hquot, mul_div_cancel_right₀ _ hunit]

/-- Decimals are rounded correctly. -/
theorem isRounded_ofDecimal (negative : Bool) (d : Decimal) :
    Binary64.IsRounded negative (d.value : ℚ) (.ofDecimal negative d) := by
  rw [Binary64.ofDecimal_eq_ofQuotient, cast_value]
  exact Binary64.isRounded_ofQuotient negative _ d.unitsDen_pos

theorem value_nonneg (d : Decimal) : 0 ≤ d.value :=
  mul_nonneg (Nat.cast_nonneg _) (zpow_nonneg (by norm_num) _)

/-- Correct rounding has one result only, so it is the one that the library computes. -/
theorem eq_ofDecimal_of_isRounded {negative : Bool} {d : Decimal} {x : Binary64}
    (h : Binary64.IsRounded negative (d.value : ℚ) x) : x = .ofDecimal negative d :=
  h.unique (Rat.cast_nonneg.2 d.value_nonneg) (isRounded_ofDecimal negative d)

theorem toLower_of_isDigit {c : Char} (h : c.isDigit = true) : c.toLower = c := by
  rw [Char.isDigit, Bool.and_eq_true, decide_eq_true_eq, decide_eq_true_eq] at h
  have hupper : ¬ (c.val ≥ 'A'.val ∧ c.val ≤ 'Z'.val) := by
    rintro ⟨hletter, -⟩
    exact absurd (UInt32.le_trans hletter h.2) (by decide)
  exact dif_neg hupper

/-- A numeral starts with a digit or a point, so neither with a sign nor with a letter of a word. -/
theorem Numeral.exists_head {d : Decimal} (h : Numeral cs d) :
    ∃ c, cs.head? = some c ∧ c.toLower = c ∧ c ∉ ['+', '-', 'n', 'i'] := by
  have hdigit : ∀ c : Char, c.isDigit = true → c.toLower = c ∧ c ∉ ['+', '-', 'n', 'i'] := by
    intro c hc
    refine ⟨toLower_of_isDigit hc, fun hmem => ?_⟩
    simp only [List.mem_cons, List.not_mem_nil, or_false] at hmem
    rcases hmem with rfl | rfl | rfl | rfl <;> exact absurd hc (by decide)
  obtain ⟨hmantissa, -⟩ := h
  cases hmantissa with
  | @whole digits hrun hne =>
    obtain ⟨c, tail, rfl⟩ := List.exists_cons_of_ne_nil hne
    exact ⟨c, rfl, hdigit c (hrun c List.mem_cons_self)⟩
  | @point digits fraction hrun =>
    cases digits with
    | nil => exact ⟨'.', rfl, by decide⟩
    | cons c tail => exact ⟨c, rfl, hdigit c (hrun c List.mem_cons_self)⟩

/-- The three kinds of literals, told apart after the sign. -/
theorem readBinary64_eq (cs : List Char) :
    readBinary64 cs =
      if (splitSign cs).2.map Char.toLower = "nan".toList then some .nan
      else if (splitSign cs).2.map Char.toLower = "inf".toList ∨
          (splitSign cs).2.map Char.toLower = "infinity".toList then
        some (.infinite (splitSign cs).1)
      else (readUnsigned (splitSign cs).2).map (Binary64.ofDecimal (splitSign cs).1) := by
  have hword : ∀ w : String, String.ofList ((splitSign cs).2.map Char.toLower) = w ↔
      (splitSign cs).2.map Char.toLower = w.toList := by
    intro w
    rw [← String.toList_inj, String.toList_ofList]
  rw [readBinary64]
  simp only [hword]

/-- A word that spells `nan` or `inf` in some case does not start with a sign. -/
theorem head_ne_sign_of_map_toLower {word lower : List Char} (h : word.map Char.toLower = lower)
    (hlower : lower.head? ≠ some '+' ∧ lower.head? ≠ some '-') :
    ∀ c ∈ word.head?, c ≠ '+' ∧ c ≠ '-' := by
  intro c hc
  have hmem : c.toLower ∈ lower.head? := by
    rw [← h, List.head?_map, Option.mem_def.1 hc]
    rfl
  constructor <;> rintro rfl
  · exact hlower.1 hmem
  · exact hlower.2 hmem

/-- Reading a literal follows its grammar: exactly the literals are read, and each as the correctly
rounded number. -/
theorem readBinary64_eq_some_iff {x : Binary64} : readBinary64 cs = some x ↔ Literal cs x := by
  constructor
  · intro h
    obtain ⟨sign, hsign, hcs⟩ := exists_sign cs
    rw [readBinary64_eq] at h
    rw [hcs]
    split_ifs at h with hnan hinf
    · obtain rfl := Option.some.inj h
      exact .nan hsign hnan
    · obtain rfl := Option.some.inj h
      exact .infinite hsign hinf
    · obtain ⟨d, hd, rfl⟩ := Option.map_eq_some_iff.1 h
      exact .numeral hsign (readUnsigned_eq_some_iff.1 hd) (isRounded_ofDecimal _ d)
  · intro h
    cases h with
    | nan hsign hword =>
      rw [readBinary64_eq, splitSign_append hsign (head_ne_sign_of_map_toLower hword (by decide)),
        if_pos hword]
    | @infinite sign word negative hsign hword =>
      have hhead : ∀ c ∈ word.head?, c ≠ '+' ∧ c ≠ '-' := by
        rcases hword with hword | hword
        · exact head_ne_sign_of_map_toLower hword (by decide)
        · exact head_ne_sign_of_map_toLower hword (by decide)
      have hnan : ¬ word.map Char.toLower = "nan".toList := by
        rcases hword with hword | hword <;> rw [hword] <;> decide
      rw [readBinary64_eq, splitSign_append hsign hhead]
      dsimp only
      rw [if_neg hnan, if_pos hword]
    | @numeral sign numeral negative d x hsign hnumeral hround =>
      obtain ⟨c, hhead, hlower, hc⟩ := hnumeral.exists_head
      -- a numeral starts with a digit or a point, so it is neither of the words
      have hword : ∀ w : String, w.toList.head? = some 'n' ∨ w.toList.head? = some 'i' →
          ¬ numeral.map Char.toLower = w.toList := by
        intro w hw heq
        rw [← heq, List.head?_map, hhead, Option.map_some, hlower] at hw
        rcases hw with hw | hw <;> obtain rfl := Option.some.inj hw <;> exact hc (by decide)
      have hsigns : ∀ b ∈ numeral.head?, b ≠ '+' ∧ b ≠ '-' := by
        intro b hb
        rw [hhead] at hb
        obtain rfl := Option.some.inj hb
        constructor <;> rintro rfl <;> exact hc (by decide)
      rw [readBinary64_eq, splitSign_append hsign hsigns]
      dsimp only
      rw [if_neg (hword "nan" (.inl rfl)),
        if_neg (not_or.2 ⟨hword "inf" (.inr rfl), hword "infinity" (.inr rfl)⟩),
        readUnsigned_eq_some_iff.2 hnumeral, Option.map_some, eq_ofDecimal_of_isRounded hround]

/-! ### Digits that are written -/

theorem isDigitRun_replicate (n : ℕ) : IsDigitRun (List.replicate n '0') := by
  intro c hc
  rw [List.eq_of_mem_replicate hc]
  rfl

theorem isDigitRun_toDigits (n : ℕ) : IsDigitRun (Nat.toDigits 10 n) :=
  fun _ hc => Nat.isDigit_of_mem_toDigits (by decide) (by decide) hc

/-- Zeros in front do not count. -/
theorem valueOf_replicate_append (n : ℕ) (ds : List Char) :
    valueOf (List.replicate n '0' ++ ds) = valueOf ds := by
  induction n with
  | zero => rfl
  | succ n ih => exact ih

theorem valueOf_toDigits (n : ℕ) : valueOf (Nat.toDigits 10 n) = n :=
  Nat.ofDigitChars_ten_toDigits

/-- Zeros in front of a natural do not change it. -/
theorem natural_replicate_append (zeros n : ℕ) :
    Natural (List.replicate zeros '0' ++ Nat.toDigits 10 n) n := by
  have hrun := isDigitRun_append.2 ⟨isDigitRun_replicate zeros, isDigitRun_toDigits n⟩
  have hnatural := Natural.mk .absent hrun (by simp)
  rwa [List.nil_append, valueOf_replicate_append, valueOf_toDigits] at hnatural

/-! ### The characters of numerals -/

/-- Whether a text has only characters that may stand in a signed numeral. -/
def IsNumeralText (cs : List Char) : Prop :=
  ∀ c ∈ cs, c.isDigit = true ∨ c ∈ ['+', '-', '.', 'e', 'E']

theorem isNumeralText_append : IsNumeralText (cs ++ ds) ↔ IsNumeralText cs ∧ IsNumeralText ds :=
  List.forall_mem_append

theorem isNumeralText_cons {c : Char} (hc : c ∈ ['+', '-', '.', 'e', 'E']) :
    IsNumeralText (c :: cs) ↔ IsNumeralText cs := by
  rw [IsNumeralText, List.forall_mem_cons]
  exact and_iff_right (.inr hc)

theorem IsDigitRun.isNumeralText (h : IsDigitRun cs) : IsNumeralText cs :=
  fun c hc => .inl (h c hc)

theorem Sign.isNumeralText {negative : Bool} (h : Sign cs negative) : IsNumeralText cs := by
  cases h <;> simp [IsNumeralText]

theorem Natural.isNumeralText {n : ℕ} (h : Natural cs n) : IsNumeralText cs := by
  obtain ⟨hsign, hrun, -⟩ := h
  exact isNumeralText_append.2 ⟨hsign.isNumeralText, hrun.isNumeralText⟩

theorem Mantissa.isNumeralText {d : Decimal} (h : Mantissa cs d) : IsNumeralText cs := by
  cases h with
  | whole hrun => exact hrun.isNumeralText
  | point hrun hfraction =>
    refine isNumeralText_append.2 ⟨hrun.isNumeralText, ?_⟩
    exact (isNumeralText_cons (by decide)).2 hfraction.isNumeralText

theorem Exponent.isNumeralText {x : ℤ} (h : Exponent cs x) : IsNumeralText cs := by
  cases h with
  | absent => exact List.forall_mem_nil _
  | @given mark _ _ _ hmark hsign hrun =>
    have hmem : mark ∈ ['+', '-', '.', 'e', 'E'] := by
      rcases hmark with rfl | rfl <;> decide
    exact (isNumeralText_cons hmem).2
      (isNumeralText_append.2 ⟨hsign.isNumeralText, hrun.isNumeralText⟩)

/-- A numeral has only the characters of numerals, so in particular no colon and no blank. -/
theorem Numeral.isNumeralText {d : Decimal} (h : Numeral cs d) : IsNumeralText cs := by
  obtain ⟨hmantissa, hexponent⟩ := h
  exact isNumeralText_append.2 ⟨hmantissa.isNumeralText, hexponent.isNumeralText⟩

theorem Natural.ne_nil {n : ℕ} (h : Natural cs n) : cs ≠ [] := by
  obtain ⟨-, -, hne⟩ := h
  exact List.append_ne_nil_of_right_ne_nil _ hne

theorem Numeral.ne_nil {d : Decimal} (h : Numeral cs d) : cs ≠ [] := by
  obtain ⟨c, hc, -⟩ := h.exists_head
  rintro rfl
  cases hc

/-- A literal of a finite number is a signed numeral, neither `nan` nor `inf`. -/
theorem Literal.exists_numeral {x : Binary64} (h : Literal cs x) (hfin : x.isFinite = true) :
    ∃ sign numeral d, cs = sign ++ numeral ∧ Sign sign x.isNegative ∧ Numeral numeral d ∧
      x = .ofDecimal x.isNegative d := by
  cases h with
  | nan => cases hfin
  | infinite => cases hfin
  | @numeral sign numeral negative d x hsign hnumeral hround =>
    have hx := eq_ofDecimal_of_isRounded hround
    have hneg : x.isNegative = negative := by
      rw [hx, Binary64.ofDecimal_eq_ofQuotient, Binary64.isNegative_ofQuotient]
    exact ⟨sign, numeral, d, rfl, hneg ▸ hsign, hnumeral, hneg ▸ hx⟩

end EditList.Decimal
