import EditList.Graph.Compile
import Mathlib.Tactic.Common

/-!
# The slices of a graph as a walk over the actions

An action decides about the gaps beside it by looking at both of its neighbours.  The outcome does not
need this: going from the first action to the end of the media, every mute contributes itself, every
two neighbours the gap between them, and the last action what follows it (`walk`, `following`).  So
each gap is kept once, whatever the verbs on its two sides are.

* `slices_ofActions`: the trims of a compiled graph are the lead-in and the walk.
* `sliceCount_eq`: how many they are.
-/

namespace EditList

/-- What an action keeps of its own stretch. -/
def Action.keptSlice (a : Action) : List Slice :=
  match a.verb with
  | .cut => []
  | .mute => [⟨.between a.start a.stop, .silence⟩]

/-- What follows the last action. -/
def tailSlice (last : Action) : Slice :=
  ⟨.trailing last.stop, .media⟩

/-- The slices from the stop of the action `a` to the end of the media, when the actions `rest`
follow it. -/
def following (a : Action) : List Action → List Slice
  | [] => [tailSlice a]
  | b :: rest => gap a b :: (b.keptSlice ++ following b rest)

/-- The slices from the start of the action `a` to the end of the media. -/
def walk (a : Action) (rest : List Action) : List Slice :=
  a.keptSlice ++ following a rest

theorem following_cons (a b : Action) (rest : List Action) :
    following a (b :: rest) = gap a b :: walk b rest := rfl

theorem walk_cons (a b : Action) (rest : List Action) :
    walk a (b :: rest) = a.keptSlice ++ gap a b :: walk b rest := rfl

theorem eq_of_mem_keptSlice {a : Action} {s : Slice} (hs : s ∈ a.keptSlice) :
    s = ⟨.between a.start a.stop, .silence⟩ := by
  unfold Action.keptSlice at hs
  cases ha : a.verb with
  | cut => simp [ha] at hs
  | mute => simpa [ha] using hs

theorem countP_mute_cons (a : Action) (rest : List Action) :
    (a :: rest).countP (fun b => b.verb = .mute) =
      rest.countP (fun b => b.verb = .mute) + a.keptSlice.length := by
  unfold Action.keptSlice
  cases ha : a.verb <;> simp [ha]

/-- A walk takes a slice for each gap and each mute, and the tail. -/
theorem length_walk (a : Action) (rest : List Action) :
    (walk a rest).length = rest.length + (a :: rest).countP (fun b => b.verb = .mute) + 1 := by
  induction rest generalizing a with
  | nil =>
    rw [walk, List.length_append, countP_mute_cons, List.countP_nil, List.length_nil]
    show a.keptSlice.length + 1 = _
    omega
  | cons b rest ih =>
    have hrest := ih b
    rw [walk_cons, List.length_append, List.length_cons, countP_mute_cons, List.length_cons]
    omega

/-- An action between two whole seconds, without a reason. -/
def Action.wholeSeconds (line : ℕ) (verb : Verb) (start stop : ℕ) : Action :=
  ⟨line, verb, ⟨0, 0, .ofNat start⟩, ⟨0, 0, .ofNat stop⟩, .none, []⟩

/-! ### Looking around and walking agree -/

/-- The gap before an action, if the action brings it: a cut does, and a mute after a mute. -/
def gapBefore (previous? : Option Action) (a : Action) : List Slice :=
  match previous? with
  | none => []
  | some previous => if previous.verb = .cut ∧ a.verb = .mute then [] else [gap previous a]

/-- The gap after an action, if the action brings it: a cut before a mute does. -/
def gapAfter (a : Action) (next? : Option Action) : List Slice :=
  match next? with
  | none => []
  | some next => if a.verb = .cut ∧ next.verb = .mute then [gap a next] else []

/-- An action brings the gap before it or not, itself or not, and the gap after it or not. -/
theorem Action.slices_eq (previous? : Option Action) (a : Action) (next? : Option Action) :
    a.slices previous? next? = gapBefore previous? a ++ a.keptSlice ++ gapAfter a next? := by
  unfold Action.slices gapBefore Action.keptSlice gapAfter
  cases ha : a.verb with
  | cut =>
    -- only the action after a cut matters
    cases next? with
    | none => cases previous? <;> simp
    | some next => cases hn : next.verb <;> cases previous? <;> simp [hn]
  | mute =>
    -- only the action before a mute matters
    cases previous? with
    | none => cases next? <;> simp
    | some previous => cases hp : previous.verb <;> cases next? <;> simp [hp]

/-- Of two neighbours exactly one brings the gap between them. -/
theorem gapAfter_append_gapBefore (a b : Action) :
    gapAfter a (some b) ++ gapBefore (some a) b = [gap a b] := by
  unfold gapAfter gapBefore
  by_cases h : a.verb = .cut ∧ b.verb = .mute
  · simp [h]
  · simp [h]

/-- Looking at both neighbours takes every gap exactly once, as the walk does. -/
theorem slicesAfter_append_tailSlice (previous? : Option Action) (a : Action)
    (rest : List Action) :
    slicesAfter previous? (a :: rest) ++ [tailSlice ((a :: rest).getLast (List.cons_ne_nil _ _))] =
      gapBefore previous? a ++ walk a rest := by
  induction rest generalizing previous? a with
  | nil => simp [slicesAfter, walk, following, Action.slices_eq, gapAfter]
  | cons b rest ih =>
    have hlast : (a :: b :: rest).getLast (List.cons_ne_nil _ _) =
        (b :: rest).getLast (List.cons_ne_nil _ _) := List.getLast_cons (List.cons_ne_nil _ _)
    rw [slicesAfter, hlast, List.append_assoc, ih (some a) b, Action.slices_eq, List.head?_cons]
    calc gapBefore previous? a ++ a.keptSlice ++ gapAfter a (some b) ++
          (gapBefore (some a) b ++ walk b rest)
        = gapBefore previous? a ++ a.keptSlice ++
            (gapAfter a (some b) ++ gapBefore (some a) b) ++ walk b rest := by
          simp only [List.append_assoc]
      _ = gapBefore previous? a ++ walk a (b :: rest) := by
          rw [gapAfter_append_gapBefore, walk_cons, List.append_assoc, List.append_assoc,
            List.singleton_append]

/-- The slices that are kept, together with the tail, are the lead-in and the walk. -/
theorem keptSlices_append_tailSlice (first : Action) (rest : List Action) :
    keptSlices first rest ++ [tailSlice ((first :: rest).getLast (List.cons_ne_nil _ _))] =
      leadIn first ++ walk first rest := by
  rw [keptSlices, List.append_assoc, slicesAfter_append_tailSlice]
  rfl

/-! ### The trims of a graph -/

@[simp] theorem Node.slice?_trim (span : Span) (audio : AudioSource) (out : Label) :
    (Node.trim span audio out).slice? = some ⟨span, audio⟩ := rfl

@[simp] theorem Node.slice?_join (left right : ℕ) (out : Label) :
    (Node.join left right out).slice? = none := rfl

/-- Joining loses no slice and adds none. -/
theorem filterMap_slice?_joinSlices (joined? : Option ℕ) (next : ℕ) (last : Slice)
    (slices : List Slice) :
    (joinSlices joined? next last slices).filterMap Node.slice? = slices ++ [last] := by
  induction slices generalizing joined? next with
  | nil => cases joined? <;> rfl
  | cons slice rest ih =>
    cases joined? with
    | none =>
      rw [joinSlices, List.filterMap_cons_some (Node.slice?_trim ..), ih, List.cons_append]
    | some joined =>
      rw [joinSlices, List.filterMap_cons_some (Node.slice?_trim ..),
        List.filterMap_cons_none (Node.slice?_join ..), ih, List.cons_append]

theorem ofActions_cons (first : Action) (rest : List Action) :
    Graph.ofActions (first :: rest) =
      .ok ⟨joinSlices none 0 (tailSlice ((first :: rest).getLast (List.cons_ne_nil _ _)))
        (keptSlices first rest)⟩ := by
  rw [Graph.ofActions, tailSlice]

/-- The trims of a compiled graph are the lead-in and the walk over its actions. -/
theorem slices_ofActions {first : Action} {rest : List Action} {g : Graph}
    (h : Graph.ofActions (first :: rest) = .ok g) : g.slices = leadIn first ++ walk first rest := by
  rw [ofActions_cons, Except.ok.injEq] at h
  rw [← h, Graph.slices, filterMap_slice?_joinSlices, keptSlices_append_tailSlice]

theorem length_leadIn (first : Action) :
    (leadIn first).length = if first.start.isNearZero then 0 else 1 := by
  unfold leadIn
  split <;> rfl

/-- The number of trims: the lead-in, a gap for every two neighbours, the mutes and what follows the
last action. -/
theorem sliceCount_eq {first : Action} {rest : List Action} {g : Graph}
    (h : Graph.ofActions (first :: rest) = .ok g) :
    g.sliceCount = (if first.start.isNearZero then 0 else 1) +
      (rest.length + (first :: rest).countP (fun a => a.verb = .mute) + 1) := by
  rw [Graph.sliceCount, slices_ofActions h, List.length_append, length_leadIn, length_walk]

end EditList
