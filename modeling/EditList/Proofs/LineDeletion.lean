import EditList.Proofs.Renumber
import EditList.Proofs.Script
import EditList.Proofs.Spacing
import Mathlib.Data.List.Chain
import Mathlib.Data.List.Flatten

/-!
# Accepted edits are apart, and stay accepted without some of them

The checks look at neighbours only, and at rounded differences.  All the same the edits of an accepted
list are apart from each other everywhere (`Apart` is transitive), so no other order of them is accepted,
and a list from which lines are deleted is accepted as well: the edits that become neighbours were apart
before.

* `accepted_edits_apart_and_deletable`: the three statements for every text.
-/

namespace EditList

/-! ### One order only -/

variable {actions : List Action}

/-- Accepted actions are in the order of their starts, all of them and not only neighbours. -/
theorem pairwise_start_of_checkSpacing (hparsed : ∀ a ∈ actions, a.Parsed)
    (h : checkSpacing actions = .ok ()) :
    actions.Pairwise fun a b => a.start.units < b.start.units := by
  have hbounds := pairwise_bounds_of_checkSpacing hparsed h
  rw [bounds, List.pairwise_flatMap] at hbounds
  exact hbounds.2.imp fun hab => hab _ List.mem_cons_self _ List.mem_cons_self

/-- Only one order of some actions can be accepted. -/
theorem eq_of_perm_of_checkSpacing (hparsed : ∀ a ∈ actions, a.Parsed)
    (h : checkSpacing actions = .ok ()) {reordered : List Action} (hperm : reordered.Perm actions)
    (hreordered : checkSpacing reordered = .ok ()) : reordered = actions := by
  have hparsed' : ∀ a ∈ reordered, a.Parsed := fun a ha => hparsed a (hperm.mem_iff.1 ha)
  -- both lists are sorted by their starts
  refine hperm.eq_of_pairwise ?_ (pairwise_start_of_checkSpacing hparsed' hreordered)
    (pairwise_start_of_checkSpacing hparsed h)
  intro a b _ _ hab hba
  exact absurd hab (Nat.lt_asymm hba)

/-! ### Fewer edits -/

/-- Fewer edits are further apart. -/
theorem checkSpacing_of_sublist (hparsed : ∀ a ∈ actions, a.Parsed)
    (h : checkSpacing actions = .ok ()) {kept : List Action} (hsub : kept.Sublist actions) :
    checkSpacing kept = .ok () := by
  have hparsed' : ∀ a ∈ kept, a.Parsed := fun a ha => hparsed a (hsub.subset ha)
  rw [checkSpacing_eq_ok_iff hparsed] at h
  rw [checkSpacing_eq_ok_iff hparsed']
  exact h.sublist (hsub.flatMap _)

theorem bounds_map_renumber {α : Type*} (clock : Time → α) (f : ℕ → ℕ) (actions : List Action) :
    bounds clock (actions.map (Action.renumber f)) = bounds clock actions := by
  rw [bounds, List.flatMap_map]
  rfl

/-- Whether actions are apart does not depend on their lines. -/
theorem checkSpacing_map_renumber (f : ℕ → ℕ) (hparsed : ∀ a ∈ actions, a.Parsed) :
    checkSpacing (actions.map (Action.renumber f)) = .ok () ↔ checkSpacing actions = .ok () := by
  have hparsed' : ∀ a ∈ actions.map (Action.renumber f), a.Parsed := by
    intro b hb
    obtain ⟨a, ha, rfl⟩ := List.mem_map.1 hb
    exact hparsed a ha
  rw [checkSpacing_eq_ok_iff hparsed', checkSpacing_eq_ok_iff hparsed, bounds_map_renumber]

/-! ### Fewer lines -/

/-- The number that a line has when only some lines are kept: one more than the kept lines before
it. -/
def keptNumber (keep : ℕ → Bool) (line : ℕ) : ℕ :=
  (List.range' 1 (line - 1)).countP keep + 1

theorem keptNumber_succ (keep : ℕ → Bool) {m : ℕ} (hm : 1 ≤ m) :
    keptNumber keep (m + 1) = if keep m then keptNumber keep m + 1 else keptNumber keep m := by
  obtain ⟨k, rfl⟩ := Nat.exists_eq_add_of_le hm
  have hrange : List.range' 1 (1 + k + 1 - 1) = List.range' 1 (1 + k - 1) ++ [1 + k] := by
    rw [Nat.add_sub_cancel, Nat.add_sub_cancel_left, Nat.add_comm 1 k, List.range'_1_concat,
      Nat.add_comm 1 k]
  rw [keptNumber, keptNumber, hrange, List.countP_append, List.countP_singleton]
  split <;> rfl

/-- The text without the lines that are not kept. -/
def keepLines (keep : ℕ → Bool) (text : String) : String :=
  String.ofList (Text.keepLines keep 1 text.toList)

/-- The lines that are kept are read as before, with the numbers that they have now. -/
theorem ofTokens_keepLines {text : String} (h : Action.ofTokens (tokens text) = .ok actions)
    (keep : ℕ → Bool) :
    Action.ofTokens (tokens (keepLines keep text)) =
      .ok ((actions.filter fun a => keep a.line).map (Action.renumber (keptNumber keep))) := by
  have hkept := (linesRead_iff.2 h).keptLines fun m hm => keptNumber_succ keep hm
  rw [tokens, keepLines, String.toList_ofList, Text.lines_keepLines]
  exact hkept.ofTokens_eq

/-- The bounds of all accepted actions are in strict order, so no other order of these actions is
accepted.  Whatever lines are deleted, the text is still accepted, and its actions are those of the
lines that are kept with their new numbers. -/
theorem accepted_edits_apart_and_deletable {text : String} {actions : List Action}
    (h : readActions text = .ok actions) :
    (bounds Time.total actions).Pairwise (fun x y => x.lt y = true) ∧
      (∀ reordered, reordered.Perm actions → checkSpacing reordered = .ok () →
        reordered = actions) ∧
      ∀ keep : ℕ → Bool, readActions (keepLines keep text) =
        .ok ((actions.filter fun a => keep a.line).map (Action.renumber (keptNumber keep))) := by
  obtain ⟨hread, hcheck⟩ := readActions_eq_ok_iff.1 h
  have hparsed := Action.parsed_of_ofTokens hread
  have hunits := pairwise_bounds_of_checkSpacing hparsed hcheck
  refine ⟨?_, fun reordered => eq_of_perm_of_checkSpacing hparsed hcheck, fun keep => ?_⟩
  · refine pairwise_bounds_of_imp hparsed ?_ hunits
    intro s t hs ht hst
    exact (hs.total_isOffset.lt_iff ht.total_isOffset).2 hst
  · -- what is left is a sublist with other numbers, and neither matters to the spacing
    have hsub : (actions.filter fun a => keep a.line).Sublist actions := List.filter_sublist
    have hparsed' : ∀ a ∈ actions.filter fun a => keep a.line, a.Parsed :=
      fun a ha => hparsed a (hsub.subset ha)
    rw [readActions_eq_ok_iff]
    refine ⟨ofTokens_keepLines hread keep, ?_⟩
    rw [checkSpacing_map_renumber _ hparsed']
    exact checkSpacing_of_sublist hparsed hcheck hsub

/-- Three edits at the least distance, of which the middle one is deleted with the line before it.  The
last one moves up from line 4 to line 2. -/
theorem accepted_edits_apart_and_deletable_middle :
    ∃ actions, readActions "cut 0 - 1\n# pause\r\nmute 1.001 - 2 (x)\r\ncut 2.001-3" = .ok actions ∧
      actions.map (fun a => (a.line, a.verb, a.start, a.stop)) =
        [(1, .cut, ⟨0, 0, .ofNat 0⟩, ⟨0, 0, .ofNat 1⟩),
          (3, .mute, ⟨0, 0, .ofDecimal false ⟨1001, -3⟩⟩, ⟨0, 0, .ofNat 2⟩),
          (4, .cut, ⟨0, 0, .ofDecimal false ⟨2001, -3⟩⟩, ⟨0, 0, .ofNat 3⟩)] ∧
      (bounds Time.total actions).Pairwise (fun x y => x.lt y = true) ∧
      (∀ reordered, reordered.Perm actions → checkSpacing reordered = .ok () →
        reordered = actions) ∧
      readActions "cut 0 - 1\ncut 2.001-3" =
        .ok ((actions.filter fun a => a.line != 2 && a.line != 3).map
          (Action.renumber (keptNumber fun n => n != 2 && n != 3))) ∧
      keptNumber (fun n => n != 2 && n != 3) 4 = 2 := by
  have hok : (readActions "cut 0 - 1\n# pause\r\nmute 1.001 - 2 (x)\r\ncut 2.001-3").toOption.isSome =
      true := by decide +kernel
  obtain ⟨actions, hread⟩ := exists_eq_ok hok
  obtain ⟨hbounds, hperm, hkeep⟩ := accepted_edits_apart_and_deletable hread
  have htext : keepLines (fun n => n != 2 && n != 3)
      "cut 0 - 1\n# pause\r\nmute 1.001 - 2 (x)\r\ncut 2.001-3" = "cut 0 - 1\ncut 2.001-3" := by
    decide +kernel
  refine ⟨actions, hread, ?_, hbounds, hperm, htext ▸ hkeep _, by decide⟩
  refine apply_eq_of_eq_ok (List.map fun a => (a.line, a.verb, a.start, a.stop)) hread ?_
  decide +kernel

end EditList
