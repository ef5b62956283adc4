import EditList.Proofs.Graph.Walk
import Mathlib.Order.WithBot

/-!
# Slices and actions on a timeline

A clock gives every time a place on a linear order.  With the places of its times a slice is a
half-open interval, and so is an action.  When the bounds of the actions are in order on the clock, the
lead-in and the walk over the actions tile the timeline:

* `pairwise_leadIn_walk`: the slices follow one another;
* `soundAt_leadIn_walk`: at a place that is cut there is no slice, and at any other place there is
  one, which is silent exactly when the place is muted.  A lead-in that was left out leaves the places
  before the first action without a slice.

The clock is left open because the same slices are read twice: by the exact totals of their times, and
by the two decimal places that are written for the encoder.
-/

namespace EditList

section Clock

variable {α : Type*} (clock : Time → α)

/-- The starts and stops of actions, in their order. -/
def bounds (actions : List Action) : List α :=
  actions.flatMap fun a => [clock a.start, clock a.stop]

@[simp] theorem bounds_nil : bounds clock [] = [] := rfl

@[simp] theorem bounds_cons (a : Action) (rest : List Action) :
    bounds clock (a :: rest) = clock a.start :: clock a.stop :: bounds clock rest := rfl

theorem bounds_eq_map (actions : List Action) :
    bounds clock actions = (bounds id actions).map clock := by
  rw [bounds, bounds, List.map_flatMap]
  rfl

variable [LinearOrder α]

/-! ### The sound that is wanted -/

/-- Whether a place lies between the start and the stop of an action. -/
def Action.Covers (x : α) (a : Action) : Prop :=
  clock a.start ≤ x ∧ x < clock a.stop

instance (x : α) (a : Action) : Decidable (a.Covers clock x) :=
  inferInstanceAs (Decidable (_ ∧ _))

/-- Whether a place lies in an action with a given verb. -/
def IsWithin (verb : Verb) (actions : List Action) (x : α) : Prop :=
  ∃ a ∈ actions, a.verb = verb ∧ a.Covers clock x

instance (verb : Verb) (actions : List Action) (x : α) : Decidable (IsWithin clock verb actions x) :=
  inferInstanceAs (Decidable (∃ a ∈ actions, a.verb = verb ∧ a.Covers clock x))

/-- The sources of the sound that is wanted at a place: none where it is cut, the silence where it is
muted, the media elsewhere. -/
def wantedSound (actions : List Action) (x : α) : List AudioSource :=
  if IsWithin clock .cut actions x then []
  else if IsWithin clock .mute actions x then [.silence]
  else [.media]

theorem isWithin_cons_iff (verb : Verb) (a : Action) (rest : List Action) (x : α) :
    IsWithin clock verb (a :: rest) x ↔
      (a.verb = verb ∧ a.Covers clock x) ∨ IsWithin clock verb rest x := by
  simp [IsWithin]

theorem not_isWithin_of_lt {verb : Verb} {actions : List Action} {x : α}
    (h : ∀ y ∈ bounds clock actions, x < y) : ¬ IsWithin clock verb actions x := by
  rintro ⟨a, ha, -, hstart, -⟩
  have hmem : clock a.start ∈ bounds clock actions :=
    List.mem_flatMap.2 ⟨a, ha, List.mem_cons_self⟩
  exact absurd hstart (h _ hmem).not_ge

/-- Before all bounds the media is wanted. -/
theorem wantedSound_of_lt {actions : List Action} {x : α}
    (h : ∀ y ∈ bounds clock actions, x < y) : wantedSound clock actions x = [.media] := by
  rw [wantedSound, if_neg (not_isWithin_of_lt clock h), if_neg (not_isWithin_of_lt clock h)]

/-- An action does not matter outside of itself. -/
theorem wantedSound_cons_of_not_covers {a : Action} {x : α} (rest : List Action)
    (h : ¬ a.Covers clock x) : wantedSound clock (a :: rest) x = wantedSound clock rest x := by
  have hiff : ∀ verb, IsWithin clock verb (a :: rest) x ↔ IsWithin clock verb rest x := by
    intro verb
    rw [isWithin_cons_iff]
    simp [h]
  simp only [wantedSound, hiff]

/-- Inside an action only that action counts, when the later ones have not begun. -/
theorem wantedSound_cons_of_covers {a : Action} {rest : List Action} {x : α}
    (h : a.Covers clock x) (hrest : ∀ y ∈ bounds clock rest, x < y) :
    wantedSound clock (a :: rest) x = a.keptSlice.map Slice.audio := by
  have hiff : ∀ verb, IsWithin clock verb (a :: rest) x ↔ a.verb = verb := by
    intro verb
    rw [isWithin_cons_iff]
    simp [h, not_isWithin_of_lt clock hrest]
  simp only [wantedSound, hiff, Action.keptSlice]
  cases ha : a.verb <;> simp

/-! ### Slices as intervals -/

variable [Zero α]

/-- Where a span starts. -/
def Span.opens : Span → α
  | .leading _ => 0
  | .between start _ => clock start
  | .trailing start => clock start

/-- Where a span stops, and the top for a span that runs to the end of the media. -/
def Span.closes : Span → WithTop α
  | .leading stop => clock stop
  | .between _ stop => clock stop
  | .trailing _ => ⊤

/-- Whether a place lies in a slice. -/
def Slice.Contains (x : α) (s : Slice) : Prop :=
  s.span.opens clock ≤ x ∧ (x : WithTop α) < s.span.closes clock

instance (x : α) (s : Slice) : Decidable (s.Contains clock x) :=
  inferInstanceAs (Decidable (_ ∧ _))

/-- Whether a slice stops before another one starts. -/
def Slice.Precedes (s t : Slice) : Prop :=
  s.span.closes clock ≤ t.span.opens clock

/-- The slices that contain a place. -/
def slicesAt (slices : List Slice) (x : α) : List Slice :=
  slices.filter fun s => s.Contains clock x

/-- The sources of the sound at a place. -/
def soundAt (slices : List Slice) (x : α) : List AudioSource :=
  (slicesAt clock slices x).map Slice.audio

theorem soundAt_append (s t : List Slice) (x : α) :
    soundAt clock (s ++ t) x = soundAt clock s x ++ soundAt clock t x := by
  rw [soundAt, slicesAt, List.filter_append, List.map_append]
  rfl

theorem soundAt_cons_of_contains {s : Slice} {x : α} (t : List Slice) (h : s.Contains clock x) :
    soundAt clock (s :: t) x = s.audio :: soundAt clock t x := by
  rw [soundAt, slicesAt, List.filter_cons_of_pos (by simpa using h)]
  rfl

theorem soundAt_cons_of_not_contains {s : Slice} {x : α} (t : List Slice)
    (h : ¬ s.Contains clock x) : soundAt clock (s :: t) x = soundAt clock t x := by
  rw [soundAt, slicesAt, List.filter_cons_of_neg (by simpa using h)]
  rfl

theorem soundAt_of_lt_opens {slices : List Slice} {x : α}
    (h : ∀ s ∈ slices, x < s.span.opens clock) : soundAt clock slices x = [] := by
  have hnil : slicesAt clock slices x = [] := by
    rw [slicesAt, List.filter_eq_nil_iff]
    intro s hs
    rw [decide_eq_true_eq, Slice.Contains, not_and]
    intro hle
    exact absurd hle (h s hs).not_ge
  rw [soundAt, hnil, List.map_nil]

/-- An action sounds inside itself as it is kept, and nowhere else. -/
theorem soundAt_keptSlice (a : Action) (x : α) :
    soundAt clock a.keptSlice x =
      if a.Covers clock x then a.keptSlice.map Slice.audio else [] := by
  unfold Action.keptSlice
  cases a.verb with
  | cut => simp [soundAt, slicesAt]
  | mute =>
    have hiff : (⟨.between a.start a.stop, .silence⟩ : Slice).Contains clock x ↔ a.Covers clock x := by
      simp [Slice.Contains, Span.opens, Span.closes, Action.Covers]
    by_cases h : a.Covers clock x
    · rw [if_pos h]
      exact soundAt_cons_of_contains clock [] (hiff.2 h)
    · rw [if_neg h]
      exact soundAt_cons_of_not_contains clock [] (mt hiff.1 h)

/-! ### The walk on the timeline -/

/-- What follows an action opens at its stop or later. -/
theorem stop_le_opens_of_mem_following {a : Action} {rest : List Action}
    (h : (clock a.stop :: bounds clock rest).Pairwise (· ≤ ·)) :
    ∀ s ∈ following a rest, clock a.stop ≤ s.span.opens clock := by
  induction rest generalizing a with
  | nil =>
    intro s hs
    rw [following, List.mem_singleton] at hs
    rw [hs]
    exact le_refl _
  | cons b rest ih =>
    rw [bounds_cons, List.pairwise_cons] at h
    obtain ⟨hle, hb⟩ := h
    intro s hs
    rw [following, List.mem_cons, List.mem_append] at hs
    rcases hs with rfl | hs | hs
    · exact le_refl _
    · rw [eq_of_mem_keptSlice hs]
      exact hle _ List.mem_cons_self
    · exact (hle _ (by simp)).trans (ih hb.of_cons s hs)

/-- A walk from an action opens at its start or later. -/
theorem start_le_opens_of_mem_walk {a : Action} {rest : List Action}
    (h : (bounds clock (a :: rest)).Pairwise (· ≤ ·)) :
    ∀ s ∈ walk a rest, clock a.start ≤ s.span.opens clock := by
  rw [bounds_cons, List.pairwise_cons] at h
  intro s hs
  rcases List.mem_append.1 hs with hs | hs
  · rw [eq_of_mem_keptSlice hs]
    exact le_refl _
  · exact (h.1 _ List.mem_cons_self).trans (stop_le_opens_of_mem_following clock h.2 s hs)

omit [LinearOrder α] in
/-- What holds between neighbouring bounds holds between the ends of every slice. -/
theorem ends_of_mem_following {r : α → α → Prop} {a : Action} {rest : List Action}
    (h : (clock a.stop :: bounds clock rest).Pairwise r) :
    ∀ s ∈ following a rest, ∀ e : α, s.span.closes clock = e → r (s.span.opens clock) e := by
  induction rest generalizing a with
  | nil =>
    intro s hs e he
    rw [following, List.mem_singleton] at hs
    rw [hs] at he
    exact absurd he.symm (WithTop.coe_ne_top (a := e))
  | cons b rest ih =>
    rw [bounds_cons, List.pairwise_cons, List.pairwise_cons] at h
    obtain ⟨ha, hb, hrest⟩ := h
    intro s hs e he
    rw [following, List.mem_cons, List.mem_append] at hs
    -- the gap to the next action, that action itself, or what follows it
    rcases hs with rfl | hs | hs
    · rw [← WithTop.coe_injective he]
      exact ha _ List.mem_cons_self
    · rw [eq_of_mem_keptSlice hs] at he ⊢
      rw [← WithTop.coe_injective he]
      exact hb _ List.mem_cons_self
    · exact ih hrest s hs e he

/-- The order of a walk, given the order of what follows its first action. -/
theorem pairwise_walk {a : Action} {rest : List Action}
    (h : (bounds clock (a :: rest)).Pairwise (· ≤ ·))
    (hfollow : (following a rest).Pairwise (Slice.Precedes clock)) :
    (walk a rest).Pairwise (Slice.Precedes clock) := by
  rw [walk, List.pairwise_append]
  refine ⟨?_, hfollow, fun s hs t ht => ?_⟩
  · unfold Action.keptSlice
    cases a.verb <;> simp
  · rw [eq_of_mem_keptSlice hs]
    exact WithTop.coe_le_coe.2 (stop_le_opens_of_mem_following clock h.of_cons t ht)

/-- What follows an action is in order, and no two slices of it overlap. -/
theorem pairwise_following {a : Action} {rest : List Action}
    (h : (clock a.stop :: bounds clock rest).Pairwise (· ≤ ·)) :
    (following a rest).Pairwise (Slice.Precedes clock) := by
  induction rest generalizing a with
  | nil => exact List.pairwise_singleton _ _
  | cons b rest ih =>
    have hb := h.of_cons
    rw [following_cons, List.pairwise_cons]
    refine ⟨fun s hs => ?_, pairwise_walk clock hb (ih hb.of_cons)⟩
    -- the gap stops where `b` starts
    exact WithTop.coe_le_coe.2 (start_le_opens_of_mem_walk clock hb s hs)

/-- The sound of a walk, given the sound of what follows its first action. -/
theorem soundAt_walk {a : Action} {rest : List Action} {x : α}
    (h : (bounds clock (a :: rest)).Pairwise (· ≤ ·)) (hx : clock a.start ≤ x)
    (hfollow : clock a.stop ≤ x →
      soundAt clock (following a rest) x = wantedSound clock rest x) :
    soundAt clock (walk a rest) x = wantedSound clock (a :: rest) x := by
  have hsorted := h.of_cons
  rw [walk, soundAt_append, soundAt_keptSlice]
  by_cases hcov : a.Covers clock x
  · have hlt : ∀ y, clock a.stop ≤ y → x < y := fun y hy => hcov.2.trans_le hy
    have hnone := soundAt_of_lt_opens clock fun s hs =>
      hlt _ (stop_le_opens_of_mem_following clock hsorted s hs)
    rw [if_pos hcov, hnone, List.append_nil, wantedSound_cons_of_covers clock hcov]
    exact fun y hy => hlt y (List.rel_of_pairwise_cons hsorted hy)
  · have hstop : clock a.stop ≤ x := not_lt.1 fun hlt => hcov ⟨hx, hlt⟩
    rw [if_neg hcov, List.nil_append, hfollow hstop, wantedSound_cons_of_not_covers clock rest hcov]

/-- After the stop of an action the rest decides. -/
theorem soundAt_following {a : Action} {rest : List Action} {x : α}
    (h : (clock a.stop :: bounds clock rest).Pairwise (· ≤ ·)) (hx : clock a.stop ≤ x) :
    soundAt clock (following a rest) x = wantedSound clock rest x := by
  induction rest generalizing a with
  | nil =>
    have htail : (tailSlice a).Contains clock x := ⟨hx, WithTop.coe_lt_top x⟩
    rw [following, soundAt_cons_of_contains clock [] htail, wantedSound_of_lt clock (by simp)]
    rfl
  | cons b rest ih =>
    have hb := h.of_cons
    rw [following_cons]
    rcases lt_or_ge x (clock b.start) with hlt | hge
    · -- in the gap before `b`
      have hgap : (gap a b).Contains clock x := ⟨hx, WithTop.coe_lt_coe.2 hlt⟩
      have hnone := soundAt_of_lt_opens clock fun s hs =>
        hlt.trans_le (start_le_opens_of_mem_walk clock hb s hs)
      rw [soundAt_cons_of_contains clock _ hgap, hnone, wantedSound_of_lt]
      · rfl
      · intro y hy
        rcases List.mem_cons.1 hy with rfl | hy
        · exact hlt
        · exact hlt.trans_le (List.rel_of_pairwise_cons hb hy)
    · have hgap : ¬ (gap a b).Contains clock x := fun hc =>
        absurd (WithTop.coe_lt_coe.1 hc.2) hge.not_gt
      rw [soundAt_cons_of_not_contains clock _ hgap]
      exact soundAt_walk clock hb hge fun hstop => ih hb.of_cons hstop

/-! ### The lead-in -/

/-- A lead-in is one slice up to the first start, and there is one only if that is not written as
zero. -/
theorem eq_of_mem_leadIn {first : Action} {s : Slice} (hs : s ∈ leadIn first) :
    first.start.isNearZero = false ∧ s = ⟨.leading first.start, .media⟩ := by
  unfold leadIn at hs
  cases hzero : first.start.isNearZero with
  | true => simp [hzero] at hs
  | false => simpa [hzero] using hs

/-- The slices of a graph are in order, and no two of them overlap. -/
theorem pairwise_leadIn_walk {first : Action} {rest : List Action}
    (h : (bounds clock (first :: rest)).Pairwise (· ≤ ·)) :
    (leadIn first ++ walk first rest).Pairwise (Slice.Precedes clock) := by
  rw [List.pairwise_append]
  refine ⟨?_, pairwise_walk clock h (pairwise_following clock h.of_cons), fun s hs t ht => ?_⟩
  · unfold leadIn
    split <;> simp
  · rw [(eq_of_mem_leadIn hs).2]
    exact WithTop.coe_le_coe.2 (start_le_opens_of_mem_walk clock h t ht)

omit [LinearOrder α] in
/-- Both ends of a slice are neighbours among zero and the bounds, so any relation between
neighbours holds of them. -/
theorem ends_of_mem_leadIn_walk {r : α → α → Prop} {first : Action} {rest : List Action}
    (h : (bounds clock (first :: rest)).Pairwise r)
    (hzero : first.start.isNearZero = false → r 0 (clock first.start)) :
    ∀ s ∈ leadIn first ++ walk first rest, ∀ e : α, s.span.closes clock = e →
      r (s.span.opens clock) e := by
  intro s hs e he
  rw [walk, List.mem_append, List.mem_append] at hs
  rcases hs with hs | hs | hs
  · obtain ⟨hnear, rfl⟩ := eq_of_mem_leadIn hs
    rw [← WithTop.coe_injective he]
    exact hzero hnear
  · rw [eq_of_mem_keptSlice hs] at he ⊢
    rw [← WithTop.coe_injective he]
    exact List.rel_of_pairwise_cons h List.mem_cons_self
  · exact ends_of_mem_following clock h.of_cons s hs e he

/-- Before the first action the lead-in sounds, if there is one. -/
theorem soundAt_leadIn_of_lt {first : Action} {x : α} (h0 : 0 ≤ x) (hx : x < clock first.start) :
    soundAt clock (leadIn first) x = if first.start.isNearZero then [] else [.media] := by
  unfold leadIn
  split
  · rfl
  · exact soundAt_cons_of_contains clock [] ⟨h0, WithTop.coe_lt_coe.2 hx⟩

theorem soundAt_leadIn_of_le {first : Action} {x : α} (hx : clock first.start ≤ x) :
    soundAt clock (leadIn first) x = [] := by
  unfold leadIn
  split
  · rfl
  · refine soundAt_cons_of_not_contains clock [] fun hc => ?_
    exact absurd (WithTop.coe_lt_coe.1 hc.2) hx.not_gt

/-- What sounds at a place: what is wanted there, except before the first action when the lead-in was
left out. -/
theorem soundAt_leadIn_walk {first : Action} {rest : List Action} {x : α}
    (h : (bounds clock (first :: rest)).Pairwise (· ≤ ·)) (h0 : 0 ≤ x) :
    soundAt clock (leadIn first ++ walk first rest) x =
      if x < clock first.start ∧ first.start.isNearZero then []
      else wantedSound clock (first :: rest) x := by
  rw [soundAt_append]
  rcases lt_or_ge x (clock first.start) with hlt | hge
  · have hnone := soundAt_of_lt_opens clock fun s hs =>
      hlt.trans_le (start_le_opens_of_mem_walk clock h s hs)
    have hwanted : wantedSound clock (first :: rest) x = [.media] := by
      apply wantedSound_of_lt
      intro y hy
      rcases List.mem_cons.1 hy with rfl | hy
      · exact hlt
      · exact hlt.trans_le (List.rel_of_pairwise_cons h hy)
    rw [hnone, hwanted, List.append_nil, soundAt_leadIn_of_lt clock h0 hlt]
    simp [hlt]
  · rw [soundAt_leadIn_of_le clock hge, List.nil_append, if_neg fun hc => hge.not_gt hc.1]
    exact soundAt_walk clock h hge (soundAt_following clock h.of_cons)

/-! ### One slice or none -/

theorem slicesAt_eq_nil {slices : List Slice} {x : α}
    (h : soundAt clock slices x = []) : slicesAt clock slices x = [] :=
  List.map_eq_nil_iff.1 h

/-- Where the wanted sound is heard and nothing is cut, there is one slice, and it is silent exactly
when the place is muted. -/
theorem slicesAt_eq_singleton {actions : List Action} {slices : List Slice} {x : α}
    (h : soundAt clock slices x = wantedSound clock actions x)
    (hcut : ¬ IsWithin clock .cut actions x) :
    ∃ s, slicesAt clock slices x = [s] ∧ (s.audio = .silence ↔ IsWithin clock .mute actions x) := by
  rw [wantedSound, if_neg hcut, soundAt] at h
  by_cases hmute : IsWithin clock .mute actions x
  · rw [if_pos hmute] at h
    obtain ⟨s, hs, haudio⟩ := List.map_eq_singleton_iff.1 h
    exact ⟨s, hs, by simp [haudio, hmute]⟩
  · rw [if_neg hmute] at h
    obtain ⟨s, hs, haudio⟩ := List.map_eq_singleton_iff.1 h
    exact ⟨s, hs, by simp [haudio, hmute]⟩

end Clock

end EditList
