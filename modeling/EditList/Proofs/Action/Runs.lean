import EditList.Proofs.Action
import Mathlib.Data.List.SplitBy

/-!
# Runs of tokens

Actions are read from the maximal runs of neighbouring tokens with the same line (`lineRuns`), whatever the
lines are: they may come back or decrease, and a run may be of any length.  No token is lost on the way,
since an action keeps the tokens of its run.

A fault is that of the first run at fault (`ofTokens_eq_error_iff_firstFault`), and there the one that is
found first.

* `tokens_kept_or_blamed`: the statement for any list of tokens.
-/

namespace EditList

/-- The maximal runs of neighbouring tokens with the same line. -/
def lineRuns (tokens : List Token) : List (List Token) :=
  tokens.splitBy fun t u => t.line == u.line

/-! ### The groups are the runs -/

/-- Grouping tokens keeps all of them in their order. -/
theorem flatten_lineGroups (ts : List Token) :
    ((lineGroups ts).map fun g => g.1 :: g.2).flatten = ts := by
  induction ts with
  | nil => rfl
  | cons t ts ih =>
    rw [lineGroups]
    cases hgroups : lineGroups ts with
    | nil =>
      rw [hgroups] at ih
      rw [← ih]
      rfl
    | cons g groups =>
      rw [hgroups, List.map_cons, List.flatten_cons] at ih
      simp only
      split_ifs
      · rw [List.map_cons, List.flatten_cons, List.cons_append, ih]
      · rw [List.map_cons, List.flatten_cons, List.map_cons, List.flatten_cons, ih]
        rfl

theorem line_of_mem_lineGroups {ts : List Token} :
    ∀ g ∈ lineGroups ts, ∀ u ∈ g.2, u.line = g.1.line := by
  induction ts with
  | nil => exact List.forall_mem_nil _
  | cons t ts ih =>
    rw [lineGroups]
    cases hgroups : lineGroups ts with
    | nil => simp
    | cons g groups =>
      rw [hgroups, List.forall_mem_cons] at ih
      simp only
      split_ifs with hline
      · rw [List.forall_mem_cons]
        refine ⟨?_, ih.2⟩
        rw [List.forall_mem_cons]
        exact ⟨hline.symm, fun u hu => (ih.1 u hu).trans hline.symm⟩
      · rw [List.forall_mem_cons, List.forall_mem_cons]
        exact ⟨List.forall_mem_nil _, ih⟩

/-- Neighbouring groups have different lines, so the groups are as large as they can be. -/
theorem isChain_lineGroups (ts : List Token) :
    (lineGroups ts).IsChain fun g h => g.1.line ≠ h.1.line := by
  induction ts with
  | nil => exact .nil
  | cons t ts ih =>
    rw [lineGroups]
    cases hgroups : lineGroups ts with
    | nil => exact .singleton _
    | cons g groups =>
      rw [hgroups] at ih
      simp only
      split_ifs with hline
      · -- the longer run has the line that it had before
        rw [List.isChain_cons] at ih ⊢
        exact ⟨fun h hh => hline ▸ ih.1 h hh, ih.2⟩
      · exact .cons_cons hline ih

/-- The groups are the runs of tokens with one line. -/
theorem map_lineGroups (ts : List Token) :
    (lineGroups ts).map (fun g => g.1 :: g.2) = lineRuns ts := by
  have hlines : ∀ g ∈ lineGroups ts, ∀ u ∈ g.1 :: g.2, u.line = g.1.line := by
    intro g hg
    exact List.forall_mem_cons.2 ⟨rfl, line_of_mem_lineGroups g hg⟩
  symm
  rw [lineRuns, List.splitBy_eq_iff]
  refine ⟨(flatten_lineGroups ts).symm, by simp, ?_, ?_⟩
  · intro run hrun
    obtain ⟨g, hg, rfl⟩ := List.mem_map.1 hrun
    apply List.Pairwise.isChain
    apply List.pairwise_of_forall_mem_list
    intro t ht u hu
    rw [beq_iff_eq, hlines g hg t ht, hlines g hg u hu]
  · rw [List.isChain_map]
    refine (isChain_lineGroups ts).imp_of_mem_imp fun g h hg _ hne => ?_
    refine ⟨List.cons_ne_nil _ _, List.cons_ne_nil _ _, ?_⟩
    rw [beq_eq_false_iff_ne, hlines g hg _ (List.getLast_mem _)]
    exact hne

/-! ### Reading all runs -/

namespace Action

variable {ts : List Token} {actions : List Action}

/-- The actions keep the tokens that they were read from, run by run. -/
theorem map_tokens_of_ofTokens (h : ofTokens ts = .ok actions) :
    actions.map Action.tokens = lineRuns ts := by
  rw [← map_lineGroups]
  apply map_eq_map_of_mapM h
  intro g a hline
  obtain ⟨verb, start, stop, reason, -, -, -, -, -, rfl⟩ := ofLine_eq_ok_iff.1 hline
  rfl

theorem isChain_line_of_ofTokens (h : ofTokens ts = .ok actions) :
    actions.IsChain fun a b => a.line ≠ b.line := by
  have hmap : actions.map Action.line = (lineGroups ts).map fun g => g.1.line := by
    apply map_eq_map_of_mapM h
    intro g a hline
    obtain ⟨verb, start, stop, reason, -, -, -, -, -, rfl⟩ := ofLine_eq_ok_iff.1 hline
    rfl
  have hgroups := isChain_lineGroups ts
  rw [← List.isChain_map (R := (· ≠ ·)) fun g : Token × List Token => g.1.line, ← hmap,
    List.isChain_map] at hgroups
  exact hgroups

/-- An action has one to four tokens, all of its own line. -/
theorem tokens_of_mem {a : Action} (h : ofTokens ts = .ok actions) (ha : a ∈ actions) :
    (∀ t ∈ a.tokens, t.line = a.line) ∧ 1 ≤ a.tokens.length ∧ a.tokens.length ≤ 4 := by
  obtain ⟨⟨first, others⟩, hmem, hline⟩ := exists_of_mem_mapM h ha
  obtain ⟨verb, start, stop, reason, -, -, -, -, hsurplus, rfl⟩ := ofLine_eq_ok_iff.1 hline
  have hothers : others.length ≤ 3 := List.getElem?_eq_none_iff.1 hsurplus
  refine ⟨?_, Nat.le_add_left 1 _, Nat.succ_le_succ hothers⟩
  exact List.forall_mem_cons.2 ⟨rfl, line_of_mem_lineGroups _ hmem⟩

/-- Tokens cannot be read exactly when some run has a fault and the runs before it have none; the
fault is the first one of that run. -/
theorem ofTokens_eq_error_iff_firstFault {fault : Fault} :
    ofTokens ts = .error fault ↔
      ∃ before run after t, lineRuns ts = before ++ run :: after ∧ (∀ r ∈ before, IsFaultless r) ∧
        FirstFault run t fault := by
  -- the groups that are read one by one are the runs
  rw [ofTokens, mapM_eq_error, ← map_lineGroups]
  constructor
  · rintro ⟨before, ⟨first, others⟩, after, hgroups, hbefore, hline⟩
    obtain ⟨t, hfault⟩ := ofLine_eq_error_iff.1 hline
    refine ⟨before.map fun g => g.1 :: g.2, first :: others, after.map fun g => g.1 :: g.2, t, ?_, ?_,
      hfault⟩
    · rw [hgroups, List.map_append, List.map_cons]
    · intro run hrun
      obtain ⟨g, hg, rfl⟩ := List.mem_map.1 hrun
      exact exists_ofLine_eq_ok_iff.1 (hbefore g hg)
  · rintro ⟨before, run, after, t, hruns, hbefore, hfault⟩
    obtain ⟨gs, rest, hgroups, rfl, hrest⟩ := List.map_eq_append_iff.1 hruns
    obtain ⟨g, gs', rfl, rfl, rfl⟩ := List.map_eq_cons_iff.1 hrest
    refine ⟨gs, g, gs', hgroups, ?_, ofLine_eq_error_iff.2 ⟨t, hfault⟩⟩
    intro g hg
    exact exists_ofLine_eq_ok_iff.2 (hbefore _ (List.mem_map_of_mem hg))

end Action

/-- An action keeps the tokens of its run, and a fault is the first one of the first run at fault. -/
theorem tokens_kept_or_blamed (ts : List Token) :
    (∀ actions, Action.ofTokens ts = .ok actions →
        actions.flatMap Action.tokens = ts ∧
          (∀ a ∈ actions,
            (∀ t ∈ a.tokens, t.line = a.line) ∧ 1 ≤ a.tokens.length ∧ a.tokens.length ≤ 4) ∧
          actions.IsChain fun a b => a.line ≠ b.line) ∧
      ∀ fault, Action.ofTokens ts = .error fault ↔
        ∃ before run after t, lineRuns ts = before ++ run :: after ∧
          (∀ r ∈ before, IsFaultless r) ∧ FirstFault run t fault ∧
          fault.line? = some t.line ∧ fault.column? = some t.column := by
  constructor
  · intro actions h
    refine ⟨?_, fun a ha => Action.tokens_of_mem h ha, Action.isChain_line_of_ofTokens h⟩
    -- the tokens of the actions are the runs, and the runs together are all tokens
    rw [List.flatMap_def, Action.map_tokens_of_ofTokens h]
    exact List.flatten_splitBy _ ts
  · intro fault
    rw [Action.ofTokens_eq_error_iff_firstFault]
    constructor
    · rintro ⟨before, run, after, t, hruns, hbefore, hfirst⟩
      exact ⟨before, run, after, t, hruns, hbefore, hfirst, hfirst.position_eq⟩
    · rintro ⟨before, run, after, t, hruns, hbefore, hfirst, -⟩
      exact ⟨before, run, after, t, hruns, hbefore, hfirst⟩

/-- A line that comes back, and then a run with three faults of which the verb's comes first. -/
theorem tokens_kept_or_blamed_two_lists :
    (∃ a b c, Action.ofTokens [⟨"cut", 5, 1⟩, ⟨"1", 5, 5⟩, ⟨"mute", 3, 1⟩, ⟨"cut", 5, 9⟩] =
        .ok [a, b, c] ∧
      [a, b, c].flatMap Action.tokens =
        [⟨"cut", 5, 1⟩, ⟨"1", 5, 5⟩, ⟨"mute", 3, 1⟩, ⟨"cut", 5, 9⟩] ∧
      [a, b, c].IsChain fun a b => a.line ≠ b.line) ∧
    ∃ before run after t,
      lineRuns [⟨"cut", 5, 1⟩, ⟨"zap", 3, 2⟩, ⟨"x", 3, 7⟩, ⟨"y", 3, 4⟩] = before ++ run :: after ∧
        (∀ r ∈ before, IsFaultless r) ∧ FirstFault run t (.unknownVerb ⟨3, 2⟩ "zap") ∧
        some 3 = some t.line ∧ some 2 = some t.column := by
  constructor
  · have hlines : (Action.ofTokens
        [⟨"cut", 5, 1⟩, ⟨"1", 5, 5⟩, ⟨"mute", 3, 1⟩, ⟨"cut", 5, 9⟩]).toOption.map
          (List.map Action.line) = some [5, 3, 5] := by decide +kernel
    obtain ⟨actions, hactions, hmap⟩ := Option.map_eq_some_iff.1 hlines
    obtain ⟨a, as, rfl, -, hmap⟩ := List.map_eq_cons_iff.1 hmap
    obtain ⟨b, bs, rfl, -, hmap⟩ := List.map_eq_cons_iff.1 hmap
    obtain ⟨c, cs, rfl, -, hmap⟩ := List.map_eq_cons_iff.1 hmap
    obtain rfl := List.map_eq_nil_iff.1 hmap
    have hread := eq_ok_of_toOption hactions
    obtain ⟨htokens, -, hchain⟩ := (tokens_kept_or_blamed _).1 _ hread
    exact ⟨a, b, c, hread, htokens, hchain⟩
  · have hread : Action.ofTokens [⟨"cut", 5, 1⟩, ⟨"zap", 3, 2⟩, ⟨"x", 3, 7⟩, ⟨"y", 3, 4⟩] =
        .error (.unknownVerb ⟨3, 2⟩ "zap") := by decide +kernel
    exact ((tokens_kept_or_blamed _).2 _).1 hread

end EditList
