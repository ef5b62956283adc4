import EditList.Spacing
import EditList.Proofs.Action
import EditList.Proofs.Graph.Timeline
import Mathlib.Data.List.Induction

/-!
# Sound actions are apart

The checks of an action and of a gap compare rounded differences with a threshold.  For totals in units
both checks are one relation (`Apart`), and a list of actions passes them when its bounds, starts and
stops in turn, are a chain for it (`checkSpacing_eq_ok_iff`).  Rounding is monotone, so bounds that lie
farther out are apart as well.  Hence the relation is transitive: in a list that passes, any two bounds
are apart and not only neighbours, and they are in order (`pairwise_bounds_of_checkSpacing`).

In a list that does not pass, the actions before the first violation pass by themselves
(`checkSpacing_eq_error_iff`), and the fault names the action that violates and, if there are two, the
one before it (`SpacingFault`).
-/

namespace EditList

/-! ### Two bounds that are apart -/

/-- The shortest difference, in units, that passes the checks. -/
def leastUnits : ℕ :=
  (threshold - slack).magnitude

theorem leastUnits_pos : 0 < leastUnits := by
  decide +kernel

theorem isOffset_threshold_sub_slack : (threshold - slack).IsOffset := by
  have hfinite : (threshold - slack).isFinite = true := by decide +kernel
  have hlt : (threshold - slack).lt .zero = false := by decide +kernel
  obtain ⟨negative, u, h, heq, hneg⟩ := Binary64.isNonneg_of_isFinite hfinite hlt
  have hpos := leastUnits_pos
  rw [leastUnits, heq] at hpos
  cases negative with
  | false => exact ⟨u, h, heq⟩
  | true => exact absurd (hneg rfl) hpos.ne'

/-- Whether one bound lies far enough after another, both in units. -/
def Apart (x y : ℕ) : Prop :=
  leastUnits ≤ nearestUnits (y - x) 1

theorem Apart.lt {x y : ℕ} (h : Apart x y) : x < y := by
  have hzero : nearestUnits 0 1 = 0 := Binary64.representable_zero.nearestUnits_eq Nat.one_pos
  have hpos := leastUnits_pos
  by_contra hle
  rw [Apart, Nat.sub_eq_zero_of_le (Nat.le_of_not_lt hle), hzero] at h
  omega

theorem Apart.mono {x y x' y' : ℕ} (h : Apart x y) (hx : x' ≤ x) (hy : y ≤ y') : Apart x' y' :=
  Nat.le_trans h (nearestUnits_mono Nat.one_pos (by omega))

instance : Trans Apart Apart Apart where
  trans hxy hyz := hxy.mono (Nat.le_refl _) (Nat.le_of_lt hyz.lt)

/-- The rounded difference passes the threshold exactly when the magnitudes are apart. -/
theorem isBelowThreshold_eq_false_iff {x y : Binary64} (hx : x.IsOffset) (hy : y.IsOffset)
    (hle : x.magnitude ≤ y.magnitude) :
    isBelowThreshold (y - x) = false ↔ Apart x.magnitude y.magnitude := by
  obtain ⟨hoffset, hmagnitude⟩ := hx.sub hy hle
  rw [isBelowThreshold, ← Bool.not_eq_true, hoffset.lt_iff isOffset_threshold_sub_slack, hmagnitude,
    Nat.not_lt]
  rfl

/-- Both checks are of this form. -/
theorem checks_eq_ok_iff {x y : Binary64} (hx : x.IsOffset) (hy : y.IsOffset)
    {reversed close : Fault} :
    (if y.lt x then .error reversed
      else if isBelowThreshold (y - x) then .error close else .ok ()) = Except.ok () ↔
      Apart x.magnitude y.magnitude := by
  cases hlt : y.lt x with
  | true =>
    rw [hy.lt_iff hx] at hlt
    exact iff_of_false nofun fun h => Nat.lt_asymm hlt h.lt
  | false =>
    have hle : x.magnitude ≤ y.magnitude := by
      rw [← Bool.not_eq_true, hy.lt_iff hx] at hlt
      exact Nat.le_of_not_lt hlt
    rw [if_neg Bool.false_ne_true, ← isBelowThreshold_eq_false_iff hx hy hle]
    cases isBelowThreshold (y - x) with
    | true => exact iff_of_false nofun nofun
    | false => exact iff_of_true rfl rfl

/-! ### Actions that pass -/

/-- An action is accepted exactly when its bounds are apart. -/
theorem checkLength_eq_ok_iff {a : Action} (ha : a.Parsed) :
    checkLength a = .ok () ↔ Apart a.start.units a.stop.units := by
  simp only [checkLength]
  exact checks_eq_ok_iff ha.1.total_isOffset ha.2.total_isOffset

/-- Two neighbours are accepted exactly when the stop of one and the start of the other are apart. -/
theorem checkGap_eq_ok_iff {previous a : Action} (hprevious : previous.Parsed) (ha : a.Parsed) :
    checkGap previous a = .ok () ↔ Apart previous.stop.units a.start.units := by
  simp only [checkGap]
  exact checks_eq_ok_iff hprevious.2.total_isOffset ha.1.total_isOffset

/-- The checks of one action after a previous one, or as the first one. -/
def checkAfter (previous? : Option Action) (a : Action) : Except Fault Unit := do
  checkLength a
  match previous? with
  | none => .ok ()
  | some previous => checkGap previous a

theorem checkSpacingAfter_cons (previous? : Option Action) (a : Action) (rest : List Action) :
    checkSpacingAfter previous? (a :: rest) =
      (checkAfter previous? a >>= fun _ => checkSpacingAfter (some a) rest) := by
  cases previous? with
  | none =>
    rw [checkSpacingAfter, checkAfter, bind_assoc]
    rfl
  | some previous =>
    rw [checkSpacingAfter, checkAfter, bind_assoc]

/-- After a previous action the rest is accepted exactly when all neighbouring bounds are apart,
from its stop on. -/
theorem checkSpacingAfter_eq_ok_iff {previous : Action} {actions : List Action}
    (hprevious : previous.Parsed) (hparsed : ∀ a ∈ actions, a.Parsed) :
    checkSpacingAfter (some previous) actions = .ok () ↔
      (previous.stop.units :: bounds Time.units actions).IsChain Apart := by
  induction actions generalizing previous with
  | nil => exact iff_of_true rfl (.singleton _)
  | cons a rest ih =>
    rw [List.forall_mem_cons] at hparsed
    rw [checkSpacingAfter_cons, check_bind_eq_ok, checkAfter, check_bind_eq_ok,
      checkLength_eq_ok_iff hparsed.1, checkGap_eq_ok_iff hprevious hparsed.1,
      ih hparsed.1 hparsed.2, bounds_cons, List.isChain_cons_cons, List.isChain_cons_cons, and_assoc]
    exact and_left_comm

/-- Actions are accepted exactly when all neighbouring bounds are apart. -/
theorem checkSpacing_eq_ok_iff {actions : List Action} (hparsed : ∀ a ∈ actions, a.Parsed) :
    checkSpacing actions = .ok () ↔ (bounds Time.units actions).IsChain Apart := by
  cases actions with
  | nil => exact iff_of_true rfl .nil
  | cons a rest =>
    rw [List.forall_mem_cons] at hparsed
    rw [checkSpacing, checkSpacingAfter_cons, check_bind_eq_ok, checkAfter, check_bind_eq_ok,
      checkLength_eq_ok_iff hparsed.1, checkSpacingAfter_eq_ok_iff hparsed.1 hparsed.2, bounds_cons,
      List.isChain_cons_cons, and_iff_left rfl]

theorem parsed_of_mem_bounds {actions : List Action} (hparsed : ∀ a ∈ actions, a.Parsed) :
    ∀ t ∈ bounds id actions, t.Parsed := by
  intro t ht
  obtain ⟨a, ha, hta⟩ := List.mem_flatMap.1 ht
  rcases List.mem_pair.1 hta with rfl | rfl
  · exact (hparsed a ha).1
  · exact (hparsed a ha).2

/-- An order of times that were read goes over from one clock to another along the bounds of
actions. -/
theorem pairwise_bounds_of_imp {α β : Type*} {f : Time → α} {g : Time → β} {r : α → α → Prop}
    {q : β → β → Prop} {actions : List Action} (hparsed : ∀ a ∈ actions, a.Parsed)
    (himp : ∀ {s t : Time}, s.Parsed → t.Parsed → r (f s) (f t) → q (g s) (g t))
    (h : (bounds f actions).Pairwise r) : (bounds g actions).Pairwise q := by
  have hbounds := parsed_of_mem_bounds hparsed
  rw [bounds_eq_map, List.pairwise_map] at h ⊢
  exact h.imp_of_mem fun hs ht hst => himp (hbounds _ hs) (hbounds _ ht) hst

/-- Bounds of accepted actions are in strict order, all of them and not only neighbours. -/
theorem pairwise_bounds_of_checkSpacing {actions : List Action} (hparsed : ∀ a ∈ actions, a.Parsed)
    (h : checkSpacing actions = .ok ()) : (bounds Time.units actions).Pairwise (· < ·) := by
  rw [checkSpacing_eq_ok_iff hparsed, List.isChain_iff_pairwise] at h
  exact h.imp Apart.lt

theorem units_lt_of_checkSpacing {actions : List Action} (hparsed : ∀ a ∈ actions, a.Parsed)
    (h : checkSpacing actions = .ok ()) : ∀ a ∈ actions, a.start.units < a.stop.units := by
  have hbounds := pairwise_bounds_of_checkSpacing hparsed h
  rw [bounds, List.pairwise_flatMap] at hbounds
  intro a ha
  exact List.rel_of_pairwise_cons (hbounds.1 a ha) (List.mem_singleton_self _)

/-! ### The first violation -/

/-- The check of a longer list goes on from the last action of the shorter one. -/
theorem checkSpacingAfter_append (previous? : Option Action) (as bs : List Action) :
    checkSpacingAfter previous? (as ++ bs) =
      (checkSpacingAfter previous? as >>= fun _ =>
        checkSpacingAfter (as.getLast?.or previous?) bs) := by
  induction as generalizing previous? with
  | nil => rfl
  | cons a as ih =>
    rw [List.cons_append, checkSpacingAfter_cons, checkSpacingAfter_cons, ih, bind_assoc,
      List.getLast?_cons, Option.some_or, Option.or_some]

theorem checkSpacing_append (as bs : List Action) :
    checkSpacing (as ++ bs) =
      (checkSpacing as >>= fun _ => checkSpacingAfter as.getLast? bs) := by
  rw [checkSpacing, checkSpacingAfter_append, Option.or_none, checkSpacing]

/-- The faults that an action can have after a previous one, or as the first one. -/
inductive SpacingFault (previous? : Option Action) (a : Action) : Fault → Prop
  | reversed : SpacingFault previous? a (.reversed a.line a.start a.stop)
  | tooShort : SpacingFault previous? a (.tooShort a.line a.start a.stop threshold)
  | outOfOrder {previous : Action} (h : previous? = some previous) :
    SpacingFault previous? a (.outOfOrder previous.line a.line)
  | tooClose {previous : Action} (h : previous? = some previous) :
    SpacingFault previous? a (.tooClose previous.line a.line)

/-- The line of the earlier one of the two edits that a fault is about. -/
def Fault.previousLine? : Fault → Option ℕ
  | .outOfOrder previousLine _ => some previousLine
  | .tooClose previousLine _ => some previousLine
  | _ => none

/-- A fault of spacing names the line of the later action. -/
theorem SpacingFault.line?_eq {previous? : Option Action} {a : Action} {fault : Fault}
    (h : SpacingFault previous? a fault) : fault.line? = some a.line := by
  cases h <;> rfl

/-- If a fault of spacing names a second line, that is the one of the action before. -/
theorem SpacingFault.exists_previous {previous? : Option Action} {a : Action} {fault : Fault}
    (h : SpacingFault previous? a fault) {line : ℕ} (hline : fault.previousLine? = some line) :
    ∃ previous, previous? = some previous ∧ previous.line = line := by
  cases h with
  | reversed => cases hline
  | tooShort => cases hline
  | outOfOrder h => exact ⟨_, h, Option.some.inj hline⟩
  | tooClose h => exact ⟨_, h, Option.some.inj hline⟩

theorem spacingFault_of_checkAfter {previous? : Option Action} {a : Action} {fault : Fault}
    (h : checkAfter previous? a = .error fault) : SpacingFault previous? a fault := by
  rcases check_bind_eq_error.1 h with h | ⟨-, h⟩
  · simp only [checkLength] at h
    split_ifs at h <;> cases h
    · exact .reversed
    · exact .tooShort
  · cases previous? with
    | none => cases h
    | some previous =>
      simp only [checkGap] at h
      split_ifs at h <;> cases h
      · exact .outOfOrder rfl
      · exact .tooClose rfl

/-- The check fails exactly when some action does not go with the one before it and all before them
are accepted. -/
theorem checkSpacing_eq_error_iff {actions : List Action} {fault : Fault} :
    checkSpacing actions = .error fault ↔
      ∃ before a after, actions = before ++ a :: after ∧ checkSpacing before = .ok () ∧
        checkAfter before.getLast? a = .error fault := by
  constructor
  · intro h
    -- the last action violates, or the violation is among those before it
    induction actions using List.reverseRecOn with
    | nil => cases h
    | append_singleton as b ih =>
      rw [checkSpacing_append, checkSpacingAfter_cons] at h
      rcases check_bind_eq_error.1 h with h | ⟨hsound, h⟩
      · obtain ⟨before, a, after, rfl, hsound, hfault⟩ := ih h
        exact ⟨before, a, after ++ [b], by simp, hsound, hfault⟩
      · rcases check_bind_eq_error.1 h with h | ⟨-, h⟩
        · exact ⟨as, b, [], rfl, hsound, h⟩
        · cases h
  · rintro ⟨before, a, after, rfl, hsound, hfault⟩
    rw [checkSpacing_append, hsound, checkSpacingAfter_cons, hfault]
    rfl

end EditList
