import EditList.Proofs.Spacing
import EditList.Proofs.Time.Total

/-!
# The checks meet finite numbers only

A comparison with NaN is false, so a check that met one would pass.  `checkSpacing?` is the check with a
guard around each comparison and each difference: it gives no result when an operand or a difference is NaN
or infinite.  On the actions of a text it always gives the result of `checkSpacing`
(`checkSpacing?_eq_some`).

The reason is that totals of times that were read are finite, have no sign and grow with the parts of the
time (`total_rounded_once_and_finite`), and that a difference is taken only of times that are in order.
-/

namespace EditList

/-! ### Guarded operations -/

/-- The comparison of two finite numbers. -/
def Binary64.lt? (x y : Binary64) : Option Bool :=
  if x.isFinite && y.isFinite then some (x.lt y) else none

/-- The difference of two finite numbers, when it is finite too. -/
def Binary64.sub? (x y : Binary64) : Option Binary64 :=
  if x.isFinite && y.isFinite && (x - y).isFinite then some (x - y) else none

/-- The check of two bounds that follow one another. -/
def checkBounds? (x y : Binary64) (reversed close : Fault) : ExceptT Fault Option Unit := do
  if ← y.lt? x then throw reversed
  let span ← y.sub? x
  let least ← threshold.sub? slack
  if ← span.lt? least then throw close

/-- `checkLength` with guarded operations. -/
def checkLength? (a : Action) : ExceptT Fault Option Unit :=
  checkBounds? a.start.total a.stop.total (.reversed a.line a.start a.stop)
    (.tooShort a.line a.start a.stop threshold)

/-- `checkGap` with guarded operations. -/
def checkGap? (previous a : Action) : ExceptT Fault Option Unit :=
  checkBounds? previous.stop.total a.start.total (.outOfOrder previous.line a.line)
    (.tooClose previous.line a.line)

/-- `checkAfter` with guarded operations. -/
def checkAfter? (previous? : Option Action) (a : Action) : ExceptT Fault Option Unit := do
  checkLength? a
  forM previous? (checkGap? · a)

/-- `checkSpacingAfter` with guarded operations. -/
def checkSpacingAfter? (previous? : Option Action) : List Action → ExceptT Fault Option Unit
  | [] => pure ()
  | a :: rest => do
    checkAfter? previous? a
    checkSpacingAfter? (some a) rest

/-- `checkSpacing` with guarded operations. -/
def checkSpacing? (actions : List Action) : Option (Except Fault Unit) :=
  (checkSpacingAfter? none actions).run

/-! ### No guard fails -/

/-- The result of a check that meets finite numbers only. -/
def unguarded (result : Except Fault Unit) : ExceptT Fault Option Unit :=
  ExceptT.mk (some result)

theorem unguarded_bind (x : Except Fault Unit) (f : Unit → Except Fault Unit) :
    unguarded (x >>= f) = unguarded x >>= fun a => unguarded (f a) := by
  cases x <;> rfl

theorem Binary64.IsOffset.isFinite {x : Binary64} (hx : x.IsOffset) : x.isFinite = true := by
  obtain ⟨u, hu, rfl⟩ := hx
  rfl

theorem Binary64.IsOffset.lt?_eq {x y : Binary64} (hx : x.IsOffset) (hy : y.IsOffset) :
    x.lt? y = some (x.lt y) := by
  rw [lt?, hx.isFinite, hy.isFinite]
  rfl

/-- The difference of two offsets in order is finite. -/
theorem Binary64.IsOffset.sub?_eq {x y : Binary64} (hx : x.IsOffset) (hy : y.IsOffset)
    (hle : x.magnitude ≤ y.magnitude) : y.sub? x = some (y - x) := by
  rw [sub?, hx.isFinite, hy.isFinite, (hx.sub hy hle).1.isFinite]
  rfl

theorem sub?_threshold_slack : threshold.sub? slack = some (threshold - slack) := by
  decide +kernel

/-- The order is checked first, so the difference is only taken of bounds in order. -/
theorem checkBounds?_eq {x y : Binary64} (hx : x.IsOffset) (hy : y.IsOffset) (reversed close : Fault) :
    checkBounds? x y reversed close =
      unguarded (if y.lt x then .error reversed
        else if isBelowThreshold (y - x) then .error close else .ok ()) := by
  rw [checkBounds?, hy.lt?_eq hx, sub?_threshold_slack]
  cases hlt : y.lt x with
  | true => rfl
  | false =>
    -- the difference is taken only of bounds in order, so it is no larger than the second one
    have hle : x.magnitude ≤ y.magnitude := by
      rw [← Bool.not_eq_true, hy.lt_iff hx] at hlt
      exact Nat.le_of_not_lt hlt
    have hspan : (y - x).lt? (threshold - slack) = some (isBelowThreshold (y - x)) :=
      (hx.sub hy hle).1.lt?_eq isOffset_threshold_sub_slack
    rw [hx.sub?_eq hy hle]
    show (do if ← (y - x).lt? (threshold - slack) then throw close : ExceptT Fault Option Unit) = _
    rw [hspan]
    cases isBelowThreshold (y - x) <;> rfl

theorem checkLength?_eq {a : Action} (ha : a.Parsed) : checkLength? a = unguarded (checkLength a) :=
  checkBounds?_eq ha.1.total_isOffset ha.2.total_isOffset _ _

theorem checkGap?_eq {previous a : Action} (hprevious : previous.Parsed) (ha : a.Parsed) :
    checkGap? previous a = unguarded (checkGap previous a) :=
  checkBounds?_eq hprevious.2.total_isOffset ha.1.total_isOffset _ _

theorem checkAfter?_eq {previous? : Option Action} {a : Action}
    (hprevious : ∀ p ∈ previous?, p.Parsed) (ha : a.Parsed) :
    checkAfter? previous? a = unguarded (checkAfter previous? a) := by
  cases previous? with
  | none =>
    rw [checkAfter?, checkLength?_eq ha, checkAfter, unguarded_bind, Option.forM_none]
    rfl
  | some previous =>
    rw [checkAfter?, checkLength?_eq ha, checkAfter, unguarded_bind, Option.forM_some,
      checkGap?_eq (hprevious previous rfl) ha]

/-- No guard fails along a list, by induction with the previous action at hand. -/
theorem checkSpacingAfter?_eq {previous? : Option Action} {actions : List Action}
    (hprevious : ∀ p ∈ previous?, p.Parsed) (hparsed : ∀ a ∈ actions, a.Parsed) :
    checkSpacingAfter? previous? actions = unguarded (checkSpacingAfter previous? actions) := by
  induction actions generalizing previous? with
  | nil => rfl
  | cons a rest ih =>
    rw [List.forall_mem_cons] at hparsed
    have hnext : ∀ p ∈ some a, p.Parsed := by
      intro p hp
      rw [← Option.some.inj hp]
      exact hparsed.1
    rw [checkSpacingAfter?, checkAfter?_eq hprevious hparsed.1, ih hnext hparsed.2,
      checkSpacingAfter_cons, unguarded_bind]

/-- Checking actions that were read meets finite numbers only. -/
theorem checkSpacing?_eq_some {actions : List Action} (hparsed : ∀ a ∈ actions, a.Parsed) :
    checkSpacing? actions = some (checkSpacing actions) := by
  rw [checkSpacing?, checkSpacingAfter?_eq (by simp) hparsed]
  rfl

/-! ### Totals -/

/-- Totals are sound.  The times that can be read are those with finite seconds that are not below
zero; the total of each is its exact total, rounded once, and not negative; the totals grow with
hours, minutes and seconds; and no number that a check of actions computes is infinite or not a
number. -/
theorem total_rounded_once_and_finite :
    (∀ t : Time, t.Parsed ↔ t.second.isFinite = true ∧ 0 ≤ t.second.value) ∧
    (∀ t : Time, t.Parsed → t.total.IsNearest t.exactTotal ∧ t.total.isNegative = false) ∧
    (∀ s t : Time, s.Parsed → t.Parsed → s.hour ≤ t.hour → s.minute ≤ t.minute →
      s.second.value ≤ t.second.value → s.total.value ≤ t.total.value ∧ t.total.lt s.total = false) ∧
    (∀ text actions, Action.ofTokens (tokens text) = .ok actions →
      checkSpacing? actions = some (checkSpacing actions)) := by
  refine ⟨Time.exists_parse_iff, fun t ht => ?_, fun s t hs ht hhour hminute hsecond => ?_,
    fun text actions h => checkSpacing?_eq_some (Action.parsed_of_ofTokens h)⟩
  · obtain ⟨text, h⟩ := ht
    have hnonneg := Time.second_of_parse h
    obtain ⟨u, hu, htotal⟩ := Time.total_isOffset hnonneg
    exact ⟨Time.isNearest_total hnonneg, by rw [htotal]; rfl⟩
  · exact Time.total_mono (Binary64.isNonneg_iff.2 ((Time.exists_parse_iff s).1 hs))
      (Binary64.isNonneg_iff.2 ((Time.exists_parse_iff t).1 ht)) hhour hminute hsecond

end EditList
