import EditList.Proofs.Graph.Walk

/-!
# The trims of a graph, action by action

An action decides by both of its neighbours which of the gaps beside it it brings, so some gaps are
brought by the action before them and others by the action after them.  The trims of a graph do not show
this.  They are those of a plain walk that only looks back: at every action it takes the gap since the
previous one, and then the stretch of the action itself if that is a mute (`plainWalk`).

* `plainWalk_append_tailSlice`: looking back takes each gap where `walk` takes it.
* `trims_are_plain_walk`: the trims of the graph of any actions, and their number.
-/

namespace EditList

/-- The gap since the previous action, if there is one. -/
def gapSince (previous? : Option Action) (a : Action) : List Slice :=
  match previous? with
  | none => []
  | some previous => [⟨.between previous.stop a.start, .media⟩]

/-- A mute, without its sound. -/
def silenced (a : Action) : List Slice :=
  if a.verb = .mute then [⟨.between a.start a.stop, .silence⟩] else []

/-- What is taken on the way over the actions that follow a previous one, or are the first ones. -/
def plainWalk (previous? : Option Action) : List Action → List Slice
  | [] => []
  | a :: rest => gapSince previous? a ++ silenced a ++ plainWalk (some a) rest

theorem silenced_eq (a : Action) : silenced a = a.keptSlice := by
  unfold silenced Action.keptSlice
  cases a.verb <;> rfl

/-- The plain walk and the walk that the compiler is compared with agree from every action on, given
the gap before it. -/
theorem plainWalk_append_tailSlice (previous? : Option Action) (a : Action) (rest : List Action) :
    plainWalk previous? (a :: rest) ++ [tailSlice ((a :: rest).getLast (List.cons_ne_nil _ _))] =
      gapSince previous? a ++ walk a rest := by
  induction rest generalizing previous? a with
  | nil =>
    rw [plainWalk, plainWalk, silenced_eq, List.append_nil, List.append_assoc]
    rfl
  | cons b rest ih =>
    have hlast : (a :: b :: rest).getLast (List.cons_ne_nil _ _) =
        (b :: rest).getLast (List.cons_ne_nil _ _) := List.getLast_cons (List.cons_ne_nil _ _)
    -- the gap before the next action is what the induction hypothesis starts with
    have hgap : gapSince (some a) b = [gap a b] := rfl
    rw [plainWalk, hlast, List.append_assoc, ih (some a) b, hgap, silenced_eq, walk_cons,
      List.append_assoc, List.singleton_append]

/-- The trims of a compiled graph are the lead-in, the gaps and the mutes in turn, and the rest of
the media; and their number follows from the number of actions and of mutes. -/
theorem trims_are_plain_walk (first : Action) (rest : List Action) :
    ∃ g, Graph.ofActions (first :: rest) = .ok g ∧
      g.slices =
        (if first.start.isNearZero then [] else [⟨.leading first.start, .media⟩]) ++
          plainWalk none (first :: rest) ++
          [⟨.trailing ((first :: rest).getLast (List.cons_ne_nil _ _)).stop, .media⟩] ∧
      g.sliceCount =
        (if first.start.isNearZero then 0 else 1) + ((first :: rest).length - 1) +
          (first :: rest).countP (fun a => a.verb = .mute) + 1 := by
  obtain ⟨g, hg⟩ : ∃ g, Graph.ofActions (first :: rest) = .ok g := ⟨_, ofActions_cons first rest⟩
  refine ⟨g, hg, ?_, ?_⟩
  · have hwalk : plainWalk none (first :: rest) ++
        [tailSlice ((first :: rest).getLast (List.cons_ne_nil _ _))] = walk first rest :=
      plainWalk_append_tailSlice none first rest
    rw [slices_ofActions hg, ← hwalk, ← List.append_assoc]
    rfl
  · rw [sliceCount_eq hg, List.length_cons, Nat.add_sub_cancel]
    omega

end EditList
