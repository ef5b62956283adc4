import EditList.Action
import EditList.Graph

/-!
# From actions to a filter graph

Everything that is not cut is kept, in order, and the mutes take their sound from the silence.  The
slices are first listed (`keptSlices`) and then joined into a chain (`joinSlices`).
-/

namespace EditList

/-- The part of the media between two actions. -/
def gap (before after : Action) : Slice :=
  ⟨.between before.stop after.start, .media⟩

/-- The slices that an action contributes, seen with its neighbours.  A cut brings the gap on either
side of it, but leaves the gap to a following cut to that cut.  A mute brings itself, and before it
the gap to another mute. -/
def Action.slices (previous? : Option Action) (a : Action) (next? : Option Action) : List Slice :=
  match a.verb with
  | .cut =>
    (match previous? with
      | some previous => [gap previous a]
      | none => []) ++
    (match next? with
      | some next => if next.verb = .cut then [] else [gap a next]
      | none => [])
  | .mute =>
    (match previous? with
      | some previous => if previous.verb = .mute then [gap previous a] else []
      | none => []) ++
    [⟨.between a.start a.stop, .silence⟩]

/-- The slices of actions that follow a previous one, or are the first ones. -/
def slicesAfter (previous? : Option Action) : List Action → List Slice
  | [] => []
  | a :: rest => a.slices previous? rest.head? ++ slicesAfter (some a) rest

/-- What is kept before the first action.  To the encoder a duration of zero means no limit, so a
lead-in that would be written as zero is left out. -/
def leadIn (first : Action) : List Slice :=
  if first.start.isNearZero then [] else [⟨.leading first.start, .media⟩]

/-- The slices that are kept up to the stop of the last action, for actions of which `first` is the
first. -/
def keptSlices (first : Action) (rest : List Action) : List Slice :=
  leadIn first ++ slicesAfter none (first :: rest)

/-- The nodes that join slices onto the result labelled `joined?`, if there is one, and end with the
slice `last` on the output.  New labels are numbered from `next`, without a bound: for fewer than
`2 ^ 30` actions the numbers stay below `2 ^ 32`, and counting in 32 bits does the same. -/
def joinSlices (joined? : Option Nat) (next : Nat) (last : Slice) : List Slice → List Node
  | [] =>
    match joined? with
    | none => [.trim last.span last.audio .output]
    | some joined =>
      [.trim last.span last.audio (.numbered next), .join joined next .output]
  | slice :: rest =>
    match joined? with
    | none =>
      .trim slice.span slice.audio (.numbered next) :: joinSlices (some next) (next + 1) last rest
    | some joined =>
      .trim slice.span slice.audio (.numbered next) ::
        .join joined next (.numbered (next + 1)) ::
          joinSlices (some (next + 1)) (next + 2) last rest

/-- Compiles the actions of an edit list. -/
def Graph.ofActions : List Action → Except Fault Graph
  | [] => .error .noActions
  | first :: rest =>
    let last := (first :: rest).getLast (List.cons_ne_nil _ _)
    .ok ⟨joinSlices none 0 ⟨.trailing last.stop, .media⟩ (keptSlices first rest)⟩

end EditList
