import EditList.Proofs.Except
import EditList.Proofs.Graph.Walk
import Mathlib.Algebra.Group.Nat.Defs
import Mathlib.Data.List.Count
import Mathlib.Data.List.Nodup

/-!
# The labels of a compiled graph

The encoder refuses a graph in which a label is read but not written, or is written or read twice.  A
compiled graph has none of this (`label_discipline`): its numbered labels are written in order, only
the last node writes the output, and every numbered label is read once, after it was written.

`Graph.played` resolves a label: a trim plays its slice, a join what its left and then what its right
label plays.  The output of a compiled graph plays all of its trims, in the order in which they stand.

The facts about `joinSlices` are proved for the state in which it runs: `joined` is the label of what
has been joined so far, and `next` is the next free one.
-/

namespace EditList

/-- The label that a node writes. -/
def Node.out : Node → Label
  | .trim _ _ out => out
  | .join _ _ out => out

/-- The numbers of the labels that a node reads. -/
def Node.reads : Node → List ℕ
  | .trim .. => []
  | .join left right _ => [left, right]

/-- The number of a numbered label. -/
def Label.number? : Label → Option ℕ
  | .numbered n => some n
  | .output => none

/-- The numbers of the numbered labels that a graph writes, in the order of its nodes. -/
def Graph.numbersWritten (g : Graph) : List ℕ :=
  (g.nodes.map Node.out).filterMap Label.number?

/-- What a label plays, for nodes that are listed from the last one to the first.  A join is resolved
among the nodes before it; a label that no node writes plays nothing. -/
def playedBy : List Node → Label → Option (List Slice)
  | [], _ => none
  | .trim span audio out :: earlier, label =>
    if out = label then some [⟨span, audio⟩] else playedBy earlier label
  | .join left right out :: earlier, label =>
    if out = label then do
      return (← playedBy earlier (.numbered left)) ++ (← playedBy earlier (.numbered right))
    else playedBy earlier label

/-- The slices that a label of a graph plays, one after the other. -/
def Graph.played (g : Graph) (label : Label) : Option (List Slice) :=
  playedBy g.nodes.reverse label

/-- A graph in which the labels are used as the encoder asks. -/
structure Graph.WellLabelled (g : Graph) : Prop where
  /-- Only the last node writes the output. -/
  output_last : ∃ init last, g.nodes = init ++ [last] ∧ last.out = .output ∧
    ∀ node ∈ init, node.out ≠ .output
  /-- For `s` trims the numbers from `0` to `2 * s - 3` are written, in order and once each. -/
  numbers_eq : g.numbersWritten = List.range (2 * g.sliceCount - 2)
  /-- A join reads two different labels that earlier nodes wrote. -/
  reads_earlier : ∀ before left right out after, g.nodes = before ++ .join left right out :: after →
    left ≠ right ∧ .numbered left ∈ before.map Node.out ∧ .numbered right ∈ before.map Node.out
  /-- Every numbered label is read by one node. -/
  read_once : ∀ n ∈ g.numbersWritten, g.nodes.countP (fun node => n ∈ node.reads) = 1
  /-- The output plays all the trims, in their order. -/
  output_plays : g.played .output = some g.slices

/-! ### Written labels -/

/-- From `next` on, each slice takes two numbers and the last one takes one. -/
theorem map_out_joinSlices_some (joined next : ℕ) (last : Slice) (slices : List Slice) :
    (joinSlices (some joined) next last slices).map Node.out =
      (List.range' next (2 * slices.length + 1)).map .numbered ++ [.output] := by
  induction slices generalizing joined next with
  | nil => rfl
  | cons slice rest ih =>
    rw [joinSlices, List.map_cons, List.map_cons, ih, List.length_cons, Nat.mul_succ,
      List.range'_succ, List.range'_succ]
    rfl

/-- The first slice is not joined to anything and takes one number less. -/
theorem map_out_joinSlices_none (next : ℕ) (last : Slice) (slices : List Slice) :
    (joinSlices none next last slices).map Node.out =
      (List.range' next (2 * slices.length)).map .numbered ++ [.output] := by
  cases slices with
  | nil => rfl
  | cons slice rest =>
    rw [joinSlices, List.map_cons, map_out_joinSlices_some, List.length_cons, Nat.mul_succ,
      List.range'_succ]
    rfl

/-! ### Read labels -/

/-- The joins read the labels in the order in which they were written. -/
theorem flatMap_reads_joinSlices_some (joined next : ℕ) (last : Slice) (slices : List Slice) :
    (joinSlices (some joined) next last slices).flatMap Node.reads =
      joined :: List.range' next (2 * slices.length + 1) := by
  induction slices generalizing joined next with
  | nil => rfl
  | cons slice rest ih =>
    rw [joinSlices, List.flatMap_cons, List.flatMap_cons, ih, List.length_cons, Nat.mul_succ,
      List.range'_succ, List.range'_succ]
    rfl

theorem flatMap_reads_joinSlices_none (next : ℕ) (last : Slice) (slices : List Slice) :
    (joinSlices none next last slices).flatMap Node.reads =
      List.range' next (2 * slices.length) := by
  cases slices with
  | nil => rfl
  | cons slice rest =>
    rw [joinSlices, List.flatMap_cons, flatMap_reads_joinSlices_some, List.length_cons,
      Nat.mul_succ, List.range'_succ]
    rfl

/-- Where no label is read twice, the nodes that read a label are counted by its occurrences. -/
theorem countP_reads_eq_count {nodes : List Node} (h : (nodes.flatMap Node.reads).Nodup) (n : ℕ) :
    nodes.countP (fun node => n ∈ node.reads) = (nodes.flatMap Node.reads).count n := by
  induction nodes with
  | nil => rfl
  | cons node rest ih =>
    rw [List.flatMap_cons, List.nodup_append] at h
    rw [List.countP_cons, List.flatMap_cons, List.count_append, ih h.2.1, h.1.count, Nat.add_comm]
    simp only [decide_eq_true_eq]

/-! ### Labels are written before they are read -/

/-- Whether every join of a run of nodes reads two different labels that are among those `written`
before the run or were written by an earlier node of it. -/
def ReadsEarlier (written : List Label) : List Node → Prop
  | [] => True
  | .trim _ _ out :: rest => ReadsEarlier (out :: written) rest
  | .join left right out :: rest =>
    left ≠ right ∧ .numbered left ∈ written ∧ .numbered right ∈ written ∧
      ReadsEarlier (out :: written) rest

/-- What a join in the middle of a run reads was written before it. -/
theorem ReadsEarlier.of_append {written : List Label} {before after : List Node} {left right : ℕ}
    {out : Label} (h : ReadsEarlier written (before ++ .join left right out :: after)) :
    left ≠ right ∧ .numbered left ∈ before.map Node.out ++ written ∧
      .numbered right ∈ before.map Node.out ++ written := by
  induction before generalizing written with
  | nil => exact ⟨h.1, h.2.1, h.2.2.1⟩
  | cons node before ih =>
    have hrest : ReadsEarlier (node.out :: written) (before ++ .join left right out :: after) := by
      cases node with
      | trim span audio out' => exact h
      | join left' right' out' => exact h.2.2.2
    obtain ⟨hne, hl, hr⟩ := ih hrest
    simp only [List.map_cons, List.mem_append, List.mem_cons, List.cons_append] at hl hr ⊢
    exact ⟨hne, by tauto, by tauto⟩

/-- The joined label was written before, and the next one is written by the trim in between. -/
theorem readsEarlier_joinSlices_some {joined next : ℕ} {written : List Label} (last : Slice)
    (slices : List Slice) (hlt : joined < next) (hmem : .numbered joined ∈ written) :
    ReadsEarlier written (joinSlices (some joined) next last slices) := by
  induction slices generalizing joined next written with
  | nil =>
    exact ⟨Nat.ne_of_lt hlt, List.mem_cons_of_mem _ hmem, List.mem_cons_self, trivial⟩
  -- the label that the join writes is the joined one of the next round
  | cons slice rest ih =>
    refine ⟨Nat.ne_of_lt hlt, List.mem_cons_of_mem _ hmem, List.mem_cons_self, ?_⟩
    exact ih (Nat.lt_succ_self _) List.mem_cons_self

theorem readsEarlier_joinSlices_none (next : ℕ) (last : Slice) (slices : List Slice) :
    ReadsEarlier [] (joinSlices none next last slices) := by
  cases slices with
  | nil => trivial
  | cons slice rest =>
    exact readsEarlier_joinSlices_some last rest (Nat.lt_succ_self _) List.mem_cons_self

/-! ### What the output plays -/

theorem playedBy_trim_self (span : Span) (audio : AudioSource) (out : Label) (earlier : List Node) :
    playedBy (.trim span audio out :: earlier) out = some [⟨span, audio⟩] := by
  rw [playedBy, if_pos rfl]

theorem playedBy_trim_of_ne (span : Span) (audio : AudioSource) {out label : Label}
    (earlier : List Node) (h : out ≠ label) :
    playedBy (.trim span audio out :: earlier) label = playedBy earlier label := by
  rw [playedBy, if_neg h]

/-- A new slice, joined onto what `joined` plays, is played after it. -/
theorem playedBy_join_trim {joined next : ℕ} {earlier : List Node} {played : List Slice}
    (slice : Slice) (out : Label) (hlt : joined < next)
    (h : playedBy earlier (.numbered joined) = some played) :
    playedBy (.join joined next out :: .trim slice.span slice.audio (.numbered next) :: earlier) out =
      some (played ++ [slice]) := by
  have hne : Label.numbered next ≠ Label.numbered joined := by
    intro heq
    exact Nat.ne_of_gt hlt (Label.numbered.inj heq)
  rw [playedBy, if_pos rfl, playedBy_trim_of_ne _ _ _ hne, playedBy_trim_self, h]
  rfl

/-- The invariant of the chain: `joined` plays all the slices before the ones still to come. -/
theorem playedBy_joinSlices_some {joined next : ℕ} {earlier : List Node} {played : List Slice}
    (last : Slice) (slices : List Slice) (hlt : joined < next)
    (h : playedBy earlier (.numbered joined) = some played) :
    playedBy ((joinSlices (some joined) next last slices).reverse ++ earlier) .output =
      some (played ++ slices ++ [last]) := by
  induction slices generalizing joined next earlier played with
  | nil =>
    rw [List.append_nil]
    exact playedBy_join_trim last .output hlt h
  | cons slice rest ih =>
    rw [joinSlices, List.reverse_cons, List.reverse_cons, List.append_assoc, List.append_assoc]
    have hjoin := playedBy_join_trim slice (.numbered (next + 1)) hlt h
    have hrest := ih (Nat.lt_succ_self (next + 1)) hjoin
    rw [List.append_assoc played, List.singleton_append] at hrest
    exact hrest

/-- The chain as a whole plays its slices in their order. -/
theorem playedBy_joinSlices_none (next : ℕ) (last : Slice) (slices : List Slice) :
    playedBy (joinSlices none next last slices).reverse .output = some (slices ++ [last]) := by
  cases slices with
  | nil => exact playedBy_trim_self ..
  | cons slice rest =>
    rw [joinSlices, List.reverse_cons]
    exact playedBy_joinSlices_some last rest (Nat.lt_succ_self next) (playedBy_trim_self ..)

/-! ### Compiled graphs -/

theorem numbersWritten_eq_range {g : Graph} {k : ℕ}
    (h : g.nodes.map Node.out = (List.range' 0 k).map .numbered ++ [.output]) :
    g.numbersWritten = List.range k := by
  have hnumber : ∀ ns : List ℕ, (ns.map Label.numbered).filterMap Label.number? = ns := by
    intro ns
    rw [List.filterMap_map]
    exact List.filterMap_some
  rw [Graph.numbersWritten, h, List.filterMap_append, hnumber, List.range_eq_range']
  exact List.append_nil _

/-- Joining any slices gives a well labelled graph. -/
theorem wellLabelled_joinSlices (last : Slice) (slices : List Slice) :
    Graph.WellLabelled ⟨joinSlices none 0 last slices⟩ := by
  have hout := map_out_joinSlices_none 0 last slices
  have hreads := flatMap_reads_joinSlices_none 0 last slices
  have hslices := filterMap_slice?_joinSlices none 0 last slices
  have hnumbers : Graph.numbersWritten ⟨joinSlices none 0 last slices⟩ =
      List.range (2 * slices.length) := numbersWritten_eq_range hout
  refine ⟨?_, ?_, ?_, ?_, ?_⟩
  · obtain ⟨init, tail, hnodes, hinit, htail⟩ := List.map_eq_append_iff.1 hout
    obtain ⟨node, rfl, hnode⟩ := List.map_eq_singleton_iff.1 htail
    refine ⟨init, node, hnodes, hnode, fun x hx hxout => ?_⟩
    have hmem : Label.output ∈ (List.range' 0 (2 * slices.length)).map Label.numbered := by
      rw [← hinit, ← hxout]
      exact List.mem_map_of_mem hx
    simp at hmem
  · rw [hnumbers, Graph.sliceCount, Graph.slices, hslices, List.length_append, List.length_singleton]
    congr 1
  · intro before left right out after h
    have hearlier := readsEarlier_joinSlices_none 0 last slices
    rw [show joinSlices none 0 last slices = _ from h] at hearlier
    simpa using hearlier.of_append
  · -- the labels that are read are those that are written, so none is read twice
    intro n hn
    rw [hnumbers, List.range_eq_range', ← hreads] at hn
    have hnodup : ((joinSlices none 0 last slices).flatMap Node.reads).Nodup := by
      rw [hreads]
      exact List.nodup_range'
    rw [countP_reads_eq_count hnodup, List.count_eq_one_of_mem hnodup hn]
  · rw [Graph.played, playedBy_joinSlices_none, Graph.slices, hslices]

/-- Whatever the actions are, sound or not, their graph is well labelled. -/
theorem wellLabelled_ofActions {first : Action} {rest : List Action} {g : Graph}
    (h : Graph.ofActions (first :: rest) = .ok g) : g.WellLabelled := by
  rw [ofActions_cons, Except.ok.injEq] at h
  rw [← h]
  exact wellLabelled_joinSlices _ _

/-- Each action brings at most its gap and itself, besides the ends. -/
theorem sliceCount_ofActions_le {first : Action} {rest : List Action} {g : Graph}
    (h : Graph.ofActions (first :: rest) = .ok g) :
    g.sliceCount ≤ 2 * (first :: rest).length + 1 := by
  have hmutes : (first :: rest).countP (fun a => a.verb = .mute) ≤ (first :: rest).length :=
    List.countP_le_length
  rw [sliceCount_eq h]
  rw [List.length_cons] at hmutes ⊢
  split <;> omega

/-- A list of actions, sound or not, compiles to a graph that is well labelled.  Handing out the
number `n` moves the counter to `n + 1`; it stays within four times the number of actions, so for
fewer than `2 ^ 30` actions a 32-bit counter does not overflow. -/
theorem label_discipline {actions : List Action} (hne : actions ≠ [])
    (hlen : actions.length < 2 ^ 30) :
    ∃ g, Graph.ofActions actions = .ok g ∧ g.WellLabelled ∧
      (∀ n ∈ g.numbersWritten, n + 1 ≤ 4 * actions.length) ∧ 4 * actions.length < UInt32.size := by
  cases actions with
  | nil => exact absurd rfl hne
  | cons first rest =>
    obtain ⟨g, hg⟩ : ∃ g, Graph.ofActions (first :: rest) = .ok g := ⟨_, ofActions_cons first rest⟩
    -- the bound on the labels follows from the bound on the trims
    have hwell := wellLabelled_ofActions hg
    have hcount := sliceCount_ofActions_le hg
    refine ⟨g, hg, hwell, fun n hn => ?_, ?_⟩
    · rw [hwell.numbers_eq, List.mem_range] at hn
      omega
    · have hsize : UInt32.size = 4 * 2 ^ 30 := rfl
      omega

/-- Two cuts, two mutes, and a mute before a cut.  There are eight trims, so the labels from 0 to 13 are
written, and the joins read them in the same order. -/
theorem label_discipline_five_actions :
    let actions : List Action := [.wholeSeconds 1 .cut 1 2, .wholeSeconds 2 .cut 3 4,
      .wholeSeconds 3 .mute 5 6, .wholeSeconds 4 .mute 7 8, .wholeSeconds 5 .cut 9 10]
    ∃ g, Graph.ofActions actions = .ok g ∧ g.WellLabelled ∧
      (∀ n ∈ g.numbersWritten, n + 1 ≤ 4 * actions.length) ∧ 4 * actions.length < UInt32.size ∧
      g.nodes.map Node.out = (List.range 14).map .numbered ++ [.output] ∧
      g.nodes.flatMap Node.reads = List.range 14 := by
  intro actions
  obtain ⟨g, hg, hwell, hnumbers, hsize⟩ := @label_discipline actions (by decide) (by decide)
  refine ⟨g, hg, hwell, hnumbers, hsize, ?_, ?_⟩
  · refine apply_eq_of_eq_ok (fun g => g.nodes.map Node.out) hg ?_
    decide +kernel
  · refine apply_eq_of_eq_ok (fun g => g.nodes.flatMap Node.reads) hg ?_
    decide +kernel

end EditList
