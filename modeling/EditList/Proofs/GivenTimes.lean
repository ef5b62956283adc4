import EditList.Proofs.Action.Lines
import EditList.Proofs.Script
import EditList.Proofs.Spacing
import EditList.Proofs.Token.Place

/-!
# Accepted edits give their times

A time that is missing from a line is read as zero, and a comment drops the field that it breaks off.
Neither can slip through: an edit without a stop would stop at zero, so it would not stop after its
start, and the checks refuse it.  What is accepted gives its verb and both of its times on its own line,
before the comment (`accepted_times_are_given`).
-/

namespace EditList

/-- An action whose line gives a verb, a start and a stop, and no more than a reason after them. -/
structure Action.GivenOn (a : Action) (cs : List Char) : Prop where
  /-- The action was read from all tokens of the line. -/
  tokens_eq : a.tokens = lineTokens a.line cs
  length_tokens : a.tokens.length = 3 ∨ a.tokens.length = 4
  /-- The first three of them are not empty and stand on the line, before its comment. -/
  standsOn : ∀ t ∈ a.tokens.take 3, t.text ≠ "" ∧ t.StandsOn cs
  verb : ∃ t, a.tokens[0]? = some t ∧ Verb.ofName? t.text = some a.verb
  start : ∃ t, a.tokens[1]? = some t ∧ Time.parse t.text = .ok a.start
  stop : ∃ t, a.tokens[2]? = some t ∧ Time.parse t.text = .ok a.stop

theorem Time.units_zero : Time.zero.units = 0 := by
  decide +kernel

namespace Action

/-- Only a stop that is given lies after the start. -/
theorem exists_of_readTime_stop {start stop : Time} {t? : Option Token}
    (h : readTime .stop t? = .ok stop) (hlt : start.units < stop.units) : ∃ t, t? = some t := by
  cases t? with
  | some t => exact ⟨t, rfl⟩
  | none =>
    obtain rfl := Except.ok.inj h
    rw [Time.units_zero] at hlt
    exact absurd hlt (Nat.not_lt_zero _)

/-- The stop of an action comes after its start, so it is not zero, and a line that leaves it out
gives zero. -/
theorem givenOn_of_ofLine {n : ℕ} {cs : List Char} {first : Token} {others : List Token} {a : Action}
    (htokens : lineTokens n cs = first :: others) (hline : ofLine first others = .ok a)
    (hlt : a.start.units < a.stop.units) : a.GivenOn cs := by
  have hnumber := (line_of_lineTokens htokens).1
  obtain ⟨verb, start, stop, reason, hverb, hstart, hstop, -, hsurplus, rfl⟩ :=
    ofLine_eq_ok_iff.1 hline
  obtain ⟨t, ht⟩ := exists_of_readTime_stop hstop hlt
  -- with a third token there is a second one
  match others, ht with
  | s :: u :: rest, ht =>
    obtain rfl : u = t := by simpa using ht
    have hrest : rest.length ≤ 1 := by simpa using hsurplus
    refine ⟨?_, ?_, ?_, ⟨first, rfl, readVerb_eq_ok_iff.1 hverb⟩,
      ⟨s, rfl, readTime_some_eq_ok_iff.1 hstart⟩, ⟨u, rfl, readTime_some_eq_ok_iff.1 hstop⟩⟩
    · rw [hnumber, htokens]
    · simp only [List.length_cons]
      omega
    · intro v hv
      obtain ⟨i, hi⟩ := List.mem_iff_getElem?.1 hv
      rw [List.getElem?_take, Option.ite_none_right_eq_some, ← htokens] at hi
      exact ⟨text_ne_empty_of_lineTokens hi.2 hi.1,
        standsOn_of_mem_lineTokens (List.mem_of_getElem? hi.2)⟩

end Action

/-- The times of every accepted action stand on its line: neither bound is one that was left out and
taken as zero. -/
theorem accepted_times_are_given {text : String} {actions : List Action}
    (h : readActions text = .ok actions) :
    ∀ a ∈ actions, ∃ i cs, a.line = i + 1 ∧ (Text.lines text.toList)[i]? = some cs ∧
      a.GivenOn cs := by
  obtain ⟨hread, hcheck⟩ := readActions_eq_ok_iff.1 h
  have hlt := units_lt_of_checkSpacing (Action.parsed_of_ofTokens hread) hcheck
  intro a ha
  obtain ⟨i, cs, t, ts, hcs, htokens, hline⟩ := (linesRead_iff.2 hread).exists_line ha
  refine ⟨i, cs, ?_, hcs, Action.givenOn_of_ofLine htokens hline (hlt a ha)⟩
  rw [line_of_ofLine htokens hline, Nat.add_comm]

/-- An empty reason and a comment after it, and a line without a reason. -/
theorem accepted_times_are_given_two_lines :
    ∃ a b, readActions "cut -0 - 1:02 () # 9\n\tMUTE 1:3-1e3" = .ok [a, b] ∧
      a.GivenOn "cut -0 - 1:02 () # 9".toList ∧ b.GivenOn "\tMUTE 1:3-1e3".toList := by
  have hnumbers : (readActions "cut -0 - 1:02 () # 9\n\tMUTE 1:3-1e3").toOption.map
      (List.map Action.line) = some [1, 2] := by decide +kernel
  obtain ⟨actions, hactions, hmap⟩ := Option.map_eq_some_iff.1 hnumbers
  obtain ⟨a, as, rfl, ha, hmap⟩ := List.map_eq_cons_iff.1 hmap
  obtain ⟨b, bs, rfl, hb, hmap⟩ := List.map_eq_cons_iff.1 hmap
  obtain rfl := List.map_eq_nil_iff.1 hmap
  have hread := eq_ok_of_toOption hactions
  obtain ⟨i, cs, hi, hcs, hgivenA⟩ := accepted_times_are_given hread a (by simp)
  obtain ⟨j, ds, hj, hds, hgivenB⟩ := accepted_times_are_given hread b (by simp)
  obtain rfl : 0 = i := by omega
  obtain rfl : 1 = j := by omega
  obtain rfl : "cut -0 - 1:02 () # 9".toList = cs :=
    Option.some.inj ((by decide +kernel : _ = some "cut -0 - 1:02 () # 9".toList).symm.trans hcs)
  obtain rfl : "\tMUTE 1:3-1e3".toList = ds :=
    Option.some.inj ((by decide +kernel : _ = some "\tMUTE 1:3-1e3".toList).symm.trans hds)
  exact ⟨a, b, hread, hgivenA, hgivenB⟩

end EditList
