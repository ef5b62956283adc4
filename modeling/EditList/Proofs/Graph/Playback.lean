import EditList.Proofs.Graph.Labels
import EditList.Proofs.Hundredths
import EditList.Proofs.Spacing

/-!
# What a compiled graph plays

The output of a graph that was compiled from sound actions plays the media without the cuts and with
the mutes silenced (`compiled_graph_plays_edit`).  Times are read as the exact values of their totals.
The one exception is a lead-in that would be written as zero: it is not played.
-/

namespace EditList

namespace Time

/-- The exact value of the rounded total of a time, in seconds. -/
noncomputable def instant (t : Time) : ℝ :=
  t.total.value

/-- Totals are finite and have no sign, so their values are their magnitudes. -/
theorem Parsed.instant_eq {t : Time} (ht : t.Parsed) : t.instant = (t.units : ℝ) / unitsPerOne :=
  ht.total_isOffset.value_eq

theorem instant_lt_instant {s t : Time} (hs : s.Parsed) (ht : t.Parsed) (h : s.units < t.units) :
    s.instant < t.instant := by
  have hpos : (0 : ℝ) < unitsPerOne := Nat.cast_pos.2 unitsPerOne_pos
  rw [hs.instant_eq, ht.instant_eq, div_lt_div_iff_of_pos_right hpos, Nat.cast_lt]
  exact h

/-- A start that is not written as zero is after zero. -/
theorem Parsed.instant_pos {t : Time} (ht : t.Parsed) (h : t.isNearZero = false) :
    0 < t.instant := by
  rw [ht.instant_eq]
  exact div_pos (Nat.cast_pos.2 (ht.units_pos h)) (Nat.cast_pos.2 unitsPerOne_pos)

end Time

/-- Slices that play an edit list whose first action is `first`. -/
structure PlaysEdit (first : Action) (rest : List Action) (slices : List Slice) : Prop where
  /-- The slices follow one another in time. -/
  in_order : slices.Pairwise (Slice.Precedes Time.instant)
  /-- No slice is empty. -/
  lasting : ∀ s ∈ slices, ↑(s.span.opens Time.instant) < s.span.closes Time.instant
  /-- No slice contains an instant that is cut. -/
  at_cut : ∀ x : ℝ, 0 ≤ x → IsWithin Time.instant .cut (first :: rest) x →
    slicesAt Time.instant slices x = []
  /-- No slice contains an instant of a lead-in that is left out. -/
  at_short_leadIn : ∀ x : ℝ, 0 ≤ x → x < first.start.instant → first.start.isNearZero = true →
    slicesAt Time.instant slices x = []
  /-- Any other instant is in one slice, which is silent exactly when the instant is muted. -/
  elsewhere : ∀ x : ℝ, 0 ≤ x → ¬ IsWithin Time.instant .cut (first :: rest) x →
    ¬ (x < first.start.instant ∧ first.start.isNearZero = true) →
    ∃ s, slicesAt Time.instant slices x = [s] ∧
      (s.audio = .silence ↔ IsWithin Time.instant .mute (first :: rest) x)

/-- Read at exact instants, the slices of actions in order play the edit. -/
theorem playsEdit_leadIn_walk {first : Action} {rest : List Action}
    (h : (bounds Time.instant (first :: rest)).Pairwise (· < ·))
    (hzero : first.start.isNearZero = false → 0 < first.start.instant) :
    PlaysEdit first rest (leadIn first ++ walk first rest) := by
  have hle := h.imp le_of_lt
  have hsound : ∀ x : ℝ, 0 ≤ x → _ := fun x hx => soundAt_leadIn_walk Time.instant hle hx
  refine ⟨pairwise_leadIn_walk _ hle, fun s hs => ?_, fun x hx hcut => ?_,
    fun x hx hlt hnear => ?_, fun x hx hcut hlead => ?_⟩
  · have hends := ends_of_mem_leadIn_walk Time.instant h hzero s hs
    cases hcloses : s.span.closes Time.instant with
    | top => exact WithTop.coe_lt_top _
    | coe e => exact WithTop.coe_lt_coe.2 (hends e hcloses)
  · apply slicesAt_eq_nil
    rw [hsound x hx, wantedSound, if_pos hcut, ite_self]
  · apply slicesAt_eq_nil
    rw [hsound x hx, if_pos ⟨hlt, hnear⟩]
  · apply slicesAt_eq_singleton _ _ hcut
    rw [hsound x hx, if_neg hlead]

/-- Sound actions whose times were read compile to a graph whose output plays the edit. -/
theorem compiled_graph_plays_edit {first : Action} {rest : List Action}
    (hparsed : ∀ a ∈ first :: rest, a.Parsed) (hsound : checkSpacing (first :: rest) = .ok ()) :
    ∃ g slices, Graph.ofActions (first :: rest) = .ok g ∧ g.played .output = some slices ∧
      PlaysEdit first rest slices := by
  obtain ⟨g, hg⟩ : ∃ g, Graph.ofActions (first :: rest) = .ok g := ⟨_, ofActions_cons first rest⟩
  have hplayed := (wellLabelled_ofActions hg).output_plays
  rw [slices_ofActions hg] at hplayed
  have hunits := pairwise_bounds_of_checkSpacing hparsed hsound
  have hbounds := pairwise_bounds_of_imp hparsed Time.instant_lt_instant hunits
  have hfirst := (hparsed first List.mem_cons_self).1
  exact ⟨g, _, hg, hplayed, playsEdit_leadIn_walk hbounds hfirst.instant_pos⟩

/-- A cut from the start of the media, so that the lead-in is left out, and two mutes. -/
theorem compiled_graph_plays_three_actions :
    ∃ g slices, Graph.ofActions [.wholeSeconds 1 .cut 0 2, .wholeSeconds 2 .mute 3 4,
        .wholeSeconds 3 .mute 5 6] = .ok g ∧ g.played .output = some slices ∧
      PlaysEdit (.wholeSeconds 1 .cut 0 2) [.wholeSeconds 2 .mute 3 4, .wholeSeconds 3 .mute 5 6]
        slices := by
  apply compiled_graph_plays_edit
  · intro a ha
    simp only [List.mem_cons, List.not_mem_nil, or_false] at ha
    rcases ha with rfl | rfl | rfl
    · exact ⟨⟨"0", eq_ok_of_toOption (by decide +kernel)⟩,
        ⟨"2", eq_ok_of_toOption (by decide +kernel)⟩⟩
    · exact ⟨⟨"3", eq_ok_of_toOption (by decide +kernel)⟩,
        ⟨"4", eq_ok_of_toOption (by decide +kernel)⟩⟩
    · exact ⟨⟨"5", eq_ok_of_toOption (by decide +kernel)⟩,
        ⟨"6", eq_ok_of_toOption (by decide +kernel)⟩⟩
  · exact eq_ok_of_toOption (by decide +kernel)

end EditList
