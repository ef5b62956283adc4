import EditList.Proofs.Graph.Labels
import EditList.Proofs.Hundredths
import EditList.Proofs.Script
import EditList.Proofs.Spacing

/-!
# What the encoder is told

The checks of an edit list compare the totals of its times, but the encoder gets the totals with two
decimal places.  Read through these (`Time.shown`), the trims of a graph still tile the media: rounding
may let two bounds meet, but it puts none out of order, and a lead-in is left out exactly when it is
written as zero.

* `printed_trims_tile`: the statement for every text that compiles.
-/

namespace EditList

/-! ### The arguments of a trim -/

/-- The times that a span is given by. -/
def Span.times : Span → List Time
  | .leading stop => [stop]
  | .between start stop => [start, stop]
  | .trailing start => [start]

/-- A number of hundredths with two decimal places. -/
def twoPlacesText (h : ℕ) : String :=
  String.ofList (Binary64.hundredthsText h)

/-- The arguments of a trim, from the numbers of hundredths of its times. -/
def Span.shownText : Span → String
  | .leading stop => "duration=" ++ twoPlacesText stop.shown
  | .between start stop =>
    "start=" ++ twoPlacesText start.shown ++ ":end=" ++ twoPlacesText stop.shown
  | .trailing start => "start=" ++ twoPlacesText start.shown

/-- Of times that were read, the text of a span is made of their hundredths. -/
theorem Span.text_eq_shownText {span : Span} (h : ∀ t ∈ span.times, t.Parsed) :
    span.text = span.shownText := by
  have htext : ∀ t ∈ span.times, t.secondsText = twoPlacesText t.shown :=
    fun t ht => (h t ht).secondsText_eq
  cases span with
  | leading stop =>
    rw [Span.text, htext stop (by simp [Span.times])]
    simp [Span.shownText, toString]
  | between start stop =>
    rw [Span.text, htext start (by simp [Span.times]), htext stop (by simp [Span.times])]
    simp [Span.shownText, toString]
  | trailing start =>
    rw [Span.text, htext start (by simp [Span.times])]
    simp [Span.shownText, toString]

theorem mem_bounds_of_mem_following {a : Action} {rest : List Action} {s : Slice}
    (hs : s ∈ following a rest) : ∀ t ∈ s.span.times, t ∈ bounds id (a :: rest) := by
  induction rest generalizing a with
  | nil =>
    rw [following, List.mem_singleton] at hs
    rw [hs]
    simp [tailSlice, Span.times]
  | cons b rest ih =>
    rw [following, List.mem_cons, List.mem_append] at hs
    intro t ht
    rcases hs with rfl | hs | hs
    · simp only [gap, Span.times, List.mem_cons, List.not_mem_nil, or_false] at ht
      rcases ht with rfl | rfl <;> simp
    · rw [eq_of_mem_keptSlice hs] at ht
      simp only [Span.times, List.mem_cons, List.not_mem_nil, or_false] at ht
      rcases ht with rfl | rfl <;> simp
    · exact List.mem_cons_of_mem _ (List.mem_cons_of_mem _ (ih hs t ht))

/-- The times of every slice are bounds of the actions. -/
theorem mem_bounds_of_mem_leadIn_walk {first : Action} {rest : List Action} {s : Slice}
    (hs : s ∈ leadIn first ++ walk first rest) :
    ∀ t ∈ s.span.times, t ∈ bounds id (first :: rest) := by
  rw [walk, List.mem_append, List.mem_append] at hs
  rcases hs with hs | hs | hs
  · rw [(eq_of_mem_leadIn hs).2]
    simp [Span.times]
  · rw [eq_of_mem_keptSlice hs]
    simp [Span.times]
  · exact mem_bounds_of_mem_following hs

/-! ### No duration of zero -/

/-- Only the lead-in is given by its duration. -/
theorem span_ne_leading_of_mem_following {a : Action} {rest : List Action} {s : Slice}
    (hs : s ∈ following a rest) (stop : Time) : s.span ≠ .leading stop := by
  induction rest generalizing a with
  | nil =>
    rw [following, List.mem_singleton] at hs
    rw [hs]
    exact Span.noConfusion
  | cons b rest ih =>
    rw [following, List.mem_cons, List.mem_append] at hs
    rcases hs with rfl | hs | hs
    · exact Span.noConfusion
    · rw [eq_of_mem_keptSlice hs]
      exact Span.noConfusion
    · exact ih hs

theorem shownHundredths_twoPlacesText (h : ℕ) : shownHundredths (twoPlacesText h) = h := by
  rw [shownHundredths, twoPlacesText, String.toList_ofList, Binary64.valueOf_hundredthsText]

theorem start_append_ne_duration (arguments : String) : "start=" ++ arguments ≠ "duration=0.00" := by
  intro h
  have hlist := congrArg String.toList h
  simp at hlist

theorem eq_zero_of_duration_eq {h : ℕ} (heq : "duration=" ++ twoPlacesText h = "duration=0.00") :
    h = 0 := by
  have hsplit : "duration=0.00" = "duration=" ++ "0.00" := by decide
  have hzero : shownHundredths "0.00" = 0 := by decide
  rw [hsplit, String.append_right_inj] at heq
  rw [← shownHundredths_twoPlacesText h, heq, hzero]

/-- Only a lead-in up to zero would be written with the duration zero. -/
theorem eq_leading_of_shownText_eq {span : Span} (h : span.shownText = "duration=0.00") :
    ∃ stop, span = .leading stop ∧ stop.shown = 0 := by
  cases span with
  | leading stop => exact ⟨stop, rfl, eq_zero_of_duration_eq h⟩
  | between start stop =>
    rw [Span.shownText, String.append_assoc, String.append_assoc] at h
    exact absurd h (start_append_ne_duration _)
  | trailing start => exact absurd h (start_append_ne_duration _)

/-! ### The trims tile the media -/

/-- Slices whose printed bounds, in hundredths, play an edit list. -/
structure PrintsEdit (actions : List Action) (slices : List Slice) : Prop where
  /-- The bounds of every trim are written as plain numerals with two places. -/
  plain : ∀ s ∈ slices, s.span.text = s.span.shownText
  /-- The printed bounds of the actions do not decrease. -/
  sorted : (bounds Time.shown actions).Pairwise (· ≤ ·)
  /-- No trim is printed with a start after its stop. -/
  forward : ∀ s ∈ slices, ↑(s.span.opens Time.shown) ≤ s.span.closes Time.shown
  /-- No trim is printed with a duration of zero, which the encoder would take for no limit. -/
  lasting : ∀ s ∈ slices, s.span.text ≠ "duration=0.00"
  /-- The printed slices follow one another. -/
  in_order : slices.Pairwise (Slice.Precedes Time.shown)
  /-- No printed slice contains a hundredth that is cut. -/
  at_cut : ∀ k : ℕ, IsWithin Time.shown .cut actions k → slicesAt Time.shown slices k = []
  /-- Any other hundredth is in one printed slice, silent exactly when the hundredth is muted. -/
  elsewhere : ∀ k : ℕ, ¬ IsWithin Time.shown .cut actions k →
    ∃ s, slicesAt Time.shown slices k = [s] ∧
      (s.audio = .silence ↔ IsWithin Time.shown .mute actions k)

/-- Read at the hundredths that are printed, the slices of actions in order print the edit. -/
theorem printsEdit_leadIn_walk {first : Action} {rest : List Action}
    (hparsed : ∀ a ∈ first :: rest, a.Parsed)
    (h : (bounds Time.shown (first :: rest)).Pairwise (· ≤ ·)) :
    PrintsEdit (first :: rest) (leadIn first ++ walk first rest) := by
  have hnear := (hparsed first List.mem_cons_self).1.isNearZero_iff
  have hplain : ∀ s ∈ leadIn first ++ walk first rest, s.span.text = s.span.shownText := by
    intro s hs
    apply Span.text_eq_shownText
    intro t ht
    exact parsed_of_mem_bounds hparsed t (mem_bounds_of_mem_leadIn_walk hs t ht)
  have hsound : ∀ k : ℕ, soundAt Time.shown (leadIn first ++ walk first rest) k =
      wantedSound Time.shown (first :: rest) k := by
    intro k
    rw [soundAt_leadIn_walk Time.shown h (Nat.zero_le k), if_neg]
    -- a lead-in that is left out has no hundredths
    rintro ⟨hlt, hzero⟩
    rw [hnear.1 hzero] at hlt
    exact Nat.not_lt_zero k hlt
  refine ⟨hplain, h, fun s hs => ?_, fun s hs htext => ?_, pairwise_leadIn_walk _ h,
    fun k hcut => ?_, fun k hcut => ?_⟩
  · have hends := ends_of_mem_leadIn_walk Time.shown h (fun _ => Nat.zero_le _) s hs
    cases hcloses : s.span.closes Time.shown with
    | top => exact le_top
    | coe e => exact WithTop.coe_le_coe.2 (hends e hcloses)
  · rw [hplain s hs] at htext
    obtain ⟨stop, hspan, hshown⟩ := eq_leading_of_shownText_eq htext
    rw [walk, List.mem_append, List.mem_append] at hs
    rcases hs with hs | hs | hs
    · obtain ⟨hlead, rfl⟩ := eq_of_mem_leadIn hs
      obtain rfl := Span.leading.inj hspan
      rw [hnear.2 hshown] at hlead
      exact Bool.noConfusion hlead
    · rw [eq_of_mem_keptSlice hs] at hspan
      exact Span.noConfusion hspan
    · exact span_ne_leading_of_mem_following hs stop hspan
  · apply slicesAt_eq_nil
    rw [hsound k, wantedSound, if_pos hcut]
  · exact slicesAt_eq_singleton _ (hsound k) hcut

/-- Whatever text compiles, the trims of its graph, read from the numbers that the encoder gets,
follow one another and take what the actions leave, to the hundredth of a second; and none is
written with the duration zero. -/
theorem printed_trims_tile {text : String} {g : Graph} (h : compile text = .ok g) :
    ∃ actions, readActions text = .ok actions ∧ PrintsEdit actions g.slices := by
  obtain ⟨actions, hread, hg⟩ := compile_eq_ok_iff.1 h
  refine ⟨actions, hread, ?_⟩
  obtain ⟨htokens, hcheck⟩ := readActions_eq_ok_iff.1 hread
  have hparsed := Action.parsed_of_ofTokens htokens
  have hunits := (pairwise_bounds_of_checkSpacing hparsed hcheck).imp Nat.le_of_lt
  have hshown := pairwise_bounds_of_imp hparsed Time.shown_le_shown hunits
  cases actions with
  | nil => exact absurd hg (by simp [Graph.ofActions])
  | cons first rest =>
    rw [slices_ofActions hg]
    exact printsEdit_leadIn_walk hparsed hshown

/-- A lead-in that rounds to zero, and a gap whose two ends meet when they are printed. -/
theorem printed_trims_tile_meeting_bounds :
    ∃ g, compile "cut 0.004 - 1.002\nmute 1.0035 - 2 (language) # comment" = .ok g ∧
      ∃ actions, readActions "cut 0.004 - 1.002\nmute 1.0035 - 2 (language) # comment" =
        .ok actions ∧ PrintsEdit actions g.slices := by
  have hok : (compile "cut 0.004 - 1.002\nmute 1.0035 - 2 (language) # comment").toOption.isSome =
      true := by decide +kernel
  obtain ⟨g, hg⟩ := exists_eq_ok hok
  exact ⟨g, hg, printed_trims_tile hg⟩

end EditList
