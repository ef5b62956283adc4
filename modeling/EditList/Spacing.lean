import EditList.Action

/-!
# Order and spacing of actions

An edit list is sound when every action stops after it starts, each starts after the one before has
stopped, and no action and no gap between two is shorter than a threshold.
-/

namespace EditList

/-- The shortest action and the shortest gap, in seconds. -/
def threshold : Binary64 :=
  .ofDecimal false ⟨1, -3⟩

/-- How far below the threshold a span may be, since the difference of two times is rounded. -/
def slack : Binary64 :=
  .ofDecimal false ⟨1, -9⟩

/-- Whether a span is too short even with the slack. -/
def isBelowThreshold (span : Binary64) : Bool :=
  span.lt (threshold - slack)

/-- Checks that an action runs forward and lasts long enough. -/
def checkLength (a : Action) : Except Fault Unit :=
  let start := a.start.total
  let stop := a.stop.total
  if stop.lt start then .error (.reversed a.line a.start a.stop)
  else if isBelowThreshold (stop - start) then .error (.tooShort a.line a.start a.stop threshold)
  else .ok ()

/-- Checks that an action starts long enough after the previous one stops. -/
def checkGap (previous a : Action) : Except Fault Unit :=
  let stop := previous.stop.total
  let start := a.start.total
  if start.lt stop then .error (.outOfOrder previous.line a.line)
  else if isBelowThreshold (start - stop) then .error (.tooClose previous.line a.line)
  else .ok ()

/-- Checks actions that follow a previous one, or are the first ones. -/
def checkSpacingAfter (previous? : Option Action) : List Action → Except Fault Unit
  | [] => .ok ()
  | a :: rest => do
    checkLength a
    if let some previous := previous? then checkGap previous a
    checkSpacingAfter (some a) rest

/-- Checks the actions of an edit list in their order; the first violation decides, and a list
without actions is sound. -/
def checkSpacing (actions : List Action) : Except Fault Unit :=
  checkSpacingAfter none actions

end EditList
