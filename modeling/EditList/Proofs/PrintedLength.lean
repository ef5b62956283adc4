import EditList.Proofs.Graph.Playback
import EditList.Proofs.PrintedGraph
import Mathlib.Algebra.Group.Nat.Even
import Mathlib.Tactic.FieldSimp
import Mathlib.Tactic.Linarith

/-!
# Edits that are too short to print

An edit, or the gap between two, may be as short as a millisecond, but times are printed with two
decimal places.  So the two bounds of a trim may be printed alike, and then the encoder is told to take
nothing: `mute_of_a_millisecond_prints_empty` is an edit that is accepted and does not show.

What is printed is the exact value of the rounded total, rounded once more to hundredths
(`Time.RoundsWithin`).  The bounds of a trim are therefore never printed the wrong way round, they are
printed alike exactly when no middle between two hundredths separates the exact values of their totals,
and a hundredth of a second between those exact values always keeps them apart (`PrintedInOrder`).  A
hundredth between the times as they are written does not: `1:0.015` and `1:0.025` have totals that lie
a little closer together, and both are printed as 60.02.

* `printed_bounds_in_order`: the statement for every text that compiles.
-/

namespace EditList

/-! ### Rounding to hundredths -/

/-- Whether a time rounds to at most `k` hundredths: the exact value of its rounded total lies below the
middle of `k` and `k + 1`, or on it and `k` is even. -/
def Time.RoundsWithin (t : Time) (k : ℕ) : Prop :=
  100 * t.instant < k + 1 / 2 ∨ 100 * t.instant = k + 1 / 2 ∧ Even k

variable {s t : Time}

/-- An instant against the middle of `k` and `k + 1` hundredths, in units. -/
theorem Time.Parsed.mul_instant_eq (ht : t.Parsed) (k : ℕ) :
    100 * t.instant - (k + 1 / 2) =
      (((2 * (t.units * 100) : ℕ) : ℝ) - ((2 * k + 1) * unitsPerOne : ℕ)) / (2 * unitsPerOne) := by
  have hpos : (unitsPerOne : ℝ) ≠ 0 := Nat.cast_ne_zero.2 unitsPerOne_pos.ne'
  rw [ht.instant_eq]
  -- the unit is a large power of two, which must not be evaluated
  generalize unitsPerOne = unit at hpos ⊢
  generalize t.units = units
  push_cast
  field_simp

/-- The hundredths that are printed are those that the exact value of the total rounds to. -/
theorem Time.Parsed.shown_le_iff (ht : t.Parsed) (k : ℕ) : t.shown ≤ k ↔ t.RoundsWithin k := by
  have hpos : (0 : ℝ) < 2 * unitsPerOne := mul_pos two_pos (Nat.cast_pos.2 unitsPerOne_pos)
  have hdiff := ht.mul_instant_eq k
  have hlt : 100 * t.instant < k + 1 / 2 ↔ 2 * (t.units * 100) < (2 * k + 1) * unitsPerOne := by
    rw [← sub_neg, hdiff, div_lt_iff₀ hpos, zero_mul, sub_neg, Nat.cast_lt]
  have heq : 100 * t.instant = k + 1 / 2 ↔ 2 * (t.units * 100) = (2 * k + 1) * unitsPerOne := by
    rw [← sub_eq_zero, hdiff, div_eq_zero_iff, or_iff_left hpos.ne', sub_eq_zero, Nat.cast_inj]
  rw [ht.shown_eq, Binary64.hundredths_le_iff, Time.RoundsWithin, hlt, heq, Nat.even_iff]

/-- A hundredth of a second between the exact values of two rounded totals is enough to print them
differently. -/
theorem Time.shown_lt_shown (hs : s.Parsed) (ht : t.Parsed) (h : s.instant + 1 / 100 ≤ t.instant) :
    s.shown < t.shown := by
  have hpos : (0 : ℝ) < unitsPerOne := Nat.cast_pos.2 unitsPerOne_pos
  rw [hs.shown_eq, ht.shown_eq]
  apply Binary64.hundredths_lt_hundredths
  rw [hs.instant_eq, ht.instant_eq, le_div_iff₀ hpos, add_mul, div_mul_cancel₀ _ hpos.ne'] at h
  have hcast : ((s.units * 100 + unitsPerOne : ℕ) : ℝ) ≤ (t.units * 100 : ℕ) := by
    push_cast
    linarith
  exact Nat.cast_le.1 hcast

/-! ### The bounds of trims and of actions -/

/-- The bounds of a stretch of media as they are printed.  What is said of them is about the exact values
of their rounded totals, not about the times as they are written. -/
structure PrintedInOrder (start stop : Time) : Prop where
  /-- Both are written as plain numerals with two places. -/
  plain : start.secondsText = twoPlacesText start.shown ∧ stop.secondsText = twoPlacesText stop.shown
  /-- They are not printed the wrong way round. -/
  le : start.shown ≤ stop.shown
  /-- They are printed apart exactly when a middle between two hundredths lies between the exact values
  of their rounded totals. -/
  lt_iff : start.shown < stop.shown ↔ ∃ k, start.RoundsWithin k ∧ ¬ stop.RoundsWithin k
  /-- A hundredth of a second between the exact values of the rounded totals keeps them apart. -/
  lt_of_hundredth : start.instant + 1 / 100 ≤ stop.instant → start.shown < stop.shown

/-- Rounding to hundredths is monotone, so bounds in order are printed in order. -/
theorem printedInOrder_of_units_lt (hs : s.Parsed) (ht : t.Parsed) (h : s.units < t.units) :
    PrintedInOrder s t where
  plain := ⟨hs.secondsText_eq, ht.secondsText_eq⟩
  le := Time.shown_le_shown hs ht h.le
  lt_iff := by
    constructor
    · intro hlt
      exact ⟨s.shown, (hs.shown_le_iff _).1 le_rfl, fun hle => hlt.not_ge ((ht.shown_le_iff _).2 hle)⟩
    · rintro ⟨k, hsk, htk⟩
      rw [← hs.shown_le_iff] at hsk
      rw [← ht.shown_le_iff, not_le] at htk
      exact hsk.trans_lt htk
  lt_of_hundredth := Time.shown_lt_shown hs ht

/-- The bounds of a trim are among those of the actions, which are in order. -/
theorem printedInOrder_of_mem_slices {first : Action} {rest : List Action}
    (hparsed : ∀ a ∈ first :: rest, a.Parsed)
    (h : (bounds Time.units (first :: rest)).Pairwise (· < ·)) {start stop : Time}
    {audio : AudioSource} (hs : ⟨.between start stop, audio⟩ ∈ leadIn first ++ walk first rest) :
    PrintedInOrder start stop := by
  have htimes : ∀ t ∈ [start, stop], t.Parsed := by
    intro t ht
    exact parsed_of_mem_bounds hparsed t (mem_bounds_of_mem_leadIn_walk hs t ht)
  have hfirst := (hparsed first List.mem_cons_self).1.units_pos
  have hlt := ends_of_mem_leadIn_walk Time.units h hfirst _ hs stop.units rfl
  rw [Span.opens] at hlt
  exact printedInOrder_of_units_lt (htimes start (by simp)) (htimes stop (by simp)) hlt

/-- A lead-in that would end at 0.00 is left out. -/
theorem shown_pos_of_mem_slices {actions : List Action} {slices : List Slice}
    (h : PrintsEdit actions slices) {stop : Time} {audio : AudioSource}
    (hs : ⟨.leading stop, audio⟩ ∈ slices) : 0 < stop.shown := by
  rw [Nat.pos_iff_ne_zero]
  intro hzero
  apply h.lasting _ hs
  rw [h.plain _ hs, Span.shownText, hzero]
  decide

/-- Whatever text compiles, the bounds of its actions and of the trims of its graph are printed as
numerals in their order, apart from one another where the exact values of the totals are separated by a
middle between two hundredths; and no lead-in is printed with the end 0.00. -/
theorem printed_bounds_in_order {text : String} {g : Graph} (h : compile text = .ok g) :
    ∃ actions, readActions text = .ok actions ∧
      (∀ a ∈ actions, PrintedInOrder a.start a.stop) ∧
      (∀ start stop audio, ⟨.between start stop, audio⟩ ∈ g.slices → PrintedInOrder start stop) ∧
      ∀ stop audio, ⟨.leading stop, audio⟩ ∈ g.slices → 0 < stop.shown := by
  obtain ⟨actions, hread, hg⟩ := compile_eq_ok_iff.1 h
  obtain ⟨htokens, hcheck⟩ := readActions_eq_ok_iff.1 hread
  have hparsed := Action.parsed_of_ofTokens htokens
  have hbounds := pairwise_bounds_of_checkSpacing hparsed hcheck
  have hshown := pairwise_bounds_of_imp hparsed Time.shown_le_shown (hbounds.imp Nat.le_of_lt)
  refine ⟨actions, hread, fun a ha => ?_, ?_⟩
  · exact printedInOrder_of_units_lt (hparsed a ha).1 (hparsed a ha).2
      (units_lt_of_checkSpacing hparsed hcheck a ha)
  · cases actions with
    | nil => exact absurd hg (by simp [Graph.ofActions])
    | cons first rest =>
      rw [slices_ofActions hg]
      have hprints := printsEdit_leadIn_walk hparsed hshown
      exact ⟨fun _ _ _ => printedInOrder_of_mem_slices hparsed hbounds,
        fun _ _ => shown_pos_of_mem_slices hprints⟩

/-- A mute of a millisecond, which is printed from 1.00 to 1.00, and a cut of a hundredth. -/
theorem printed_bounds_in_order_two_edits :
    ∃ g, compile "mute 1 - 1.001\ncut 2.505 - 2.515" = .ok g ∧
      ∃ actions, readActions "mute 1 - 1.001\ncut 2.505 - 2.515" = .ok actions ∧
        (∀ a ∈ actions, PrintedInOrder a.start a.stop) ∧
        (∀ start stop audio, ⟨.between start stop, audio⟩ ∈ g.slices → PrintedInOrder start stop) ∧
        ∀ stop audio, ⟨.leading stop, audio⟩ ∈ g.slices → 0 < stop.shown := by
  have hok : (compile "mute 1 - 1.001\ncut 2.505 - 2.515").toOption.isSome = true := by
    decide +kernel
  obtain ⟨g, hg⟩ := exists_eq_ok hok
  exact ⟨g, hg, printed_bounds_in_order hg⟩

-- written a hundredth apart, but printed alike: the totals are rounded before
example : (readActions "mute 1:0.015 - 1:0.025").toOption.map (List.map fun a =>
    (a.start.secondsText, a.stop.secondsText)) = some [("60.02", "60.02")] := by
  decide +kernel

/-- Neither the trim nor the edit keeps its bounds apart. -/
theorem mute_of_a_millisecond_prints_empty :
    ∃ g actions, compile "mute 1 - 1.001" = .ok g ∧ readActions "mute 1 - 1.001" = .ok actions ∧
      (¬ ∀ start stop audio, ⟨.between start stop, audio⟩ ∈ g.slices → start.shown < stop.shown) ∧
      ¬ ∀ a ∈ actions, a.start.shown < a.stop.shown := by
  have hgraph : (compile "mute 1 - 1.001").toOption.any (fun g => g.slices.any fun s =>
      s = ⟨.between ⟨0, 0, .ofNat 1⟩ ⟨0, 0, .ofDecimal false ⟨1001, -3⟩⟩, .silence⟩) = true := by
    decide +kernel
  have haction : (readActions "mute 1 - 1.001").toOption.any (fun actions =>
      actions.any fun a => a.start.shown = a.stop.shown) = true := by
    decide +kernel
  have hshown : (Time.mk 0 0 (.ofNat 1)).shown =
      (Time.mk 0 0 (.ofDecimal false ⟨1001, -3⟩)).shown := by decide +kernel
  obtain ⟨g, hg, hslice⟩ := exists_eq_ok_and hgraph
  obtain ⟨actions, hactions, hedit⟩ := exists_eq_ok_and haction
  obtain ⟨s, hs, heq⟩ := List.any_eq_true.1 hslice
  obtain ⟨a, ha, hmeet⟩ := List.any_eq_true.1 hedit
  rw [of_decide_eq_true heq] at hs
  refine ⟨g, actions, hg, hactions, fun h => ?_, fun h => ?_⟩
  · exact (h _ _ _ hs).ne hshown
  · exact (h a ha).ne (of_decide_eq_true hmeet)

end EditList
