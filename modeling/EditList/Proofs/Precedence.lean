import EditList.Proofs.Renumber
import EditList.Proofs.Script
import EditList.Proofs.Spacing

/-!
# Which fault is reported

A text may have many faults, and one of them is the result.  A line that cannot be read comes before any
fault of order or spacing, and the first such line decides, with the fault that it has as a text of its
own.  Where every line can be read, the shortest run of edits that does not pass the checks decides
(`Judged`).

So what stands on later lines never matters to a line that cannot be read, and matters to a fault of
order or spacing only if it cannot be read itself.

* `first_fault_decides`: the statements for every text.
-/

namespace EditList

/-! ### A line as a text of its own -/

/-- What a line is read as when it is the whole text. -/
def readAlone (cs : List Char) : Except Fault (List Action) :=
  Action.ofTokens (tokens (String.ofList cs))

/-- Whether a line can be read. -/
def Readable (cs : List Char) : Prop :=
  ∃ actions, readAlone cs = .ok actions

variable {n : ℕ} {cs : List Char} {ls : List (List Char)} {fault : Fault}

/-- A text of one line is read as that line with the number 1. -/
theorem readAlone_eq (hcs : '\n' ∉ cs) : readAlone cs = Action.ofTokens (lineTokens 1 cs) := by
  rw [readAlone, tokens_eq, String.toList_ofList, List.splitOn_eq_singleton hcs, linesTokens,
    linesTokens, List.append_nil]

/-- With `k` lines before it, a line is read as it is alone, with its number raised by `k`. -/
theorem ofTokens_lineTokens_add (hcs : '\n' ∉ cs) (k : ℕ) :
    Action.ofTokens (lineTokens (1 + k) cs) =
      ((readAlone cs).map (List.map (Action.renumber (· + k)))).mapError
        (Fault.renumber (· + k)) := by
  rw [readAlone_eq hcs]
  exact ofTokens_lineTokens_renumber (· + k) 1 cs

/-- A line that cannot be read alone cannot be read further down either, and its fault moves with
it. -/
theorem ofTokens_of_readAlone_eq_error (hcs : '\n' ∉ cs) (h : readAlone cs = .error fault) (k : ℕ) :
    Action.ofTokens (lineTokens (1 + k) cs) = .error (fault.renumber (· + k)) := by
  rw [ofTokens_lineTokens_add hcs, h]
  rfl

/-- A line that can be read alone can be read further down. -/
theorem Readable.exists_ofTokens (h : Readable cs) (hcs : '\n' ∉ cs) (k : ℕ) :
    ∃ actions, Action.ofTokens (lineTokens (1 + k) cs) = .ok actions := by
  obtain ⟨actions, hread⟩ := h
  rw [ofTokens_lineTokens_add hcs, hread]
  exact ⟨_, rfl⟩

/-- Lines that can be read alone can be read together. -/
theorem exists_linesRead (hls : ∀ cs ∈ ls, '\n' ∉ cs) (h : ∀ cs ∈ ls, Readable cs) (k : ℕ) :
    ∃ actions, LinesRead (1 + k) ls actions := by
  cases hread : Action.ofTokens (linesTokens (1 + k) ls) with
  | ok actions => exact ⟨actions, linesRead_of_ofTokens hread⟩
  | error fault =>
    obtain ⟨before, cs, after, as, rfl, -, hfault⟩ := ofTokens_eq_error_iff.1 hread
    have hmem : cs ∈ before ++ cs :: after := List.mem_append_right _ List.mem_cons_self
    obtain ⟨actions, hok⟩ := (h cs hmem).exists_ofTokens (hls cs hmem) (k + before.length)
    rw [← Nat.add_assoc, hfault] at hok
    cases hok

/-! ### The first line that cannot be read -/

/-- The first line that cannot be read decides the fault, which names that line. -/
theorem readActions_of_readAlone_eq_error {text : String} {before after : List (List Char)}
    (hlines : Text.lines text.toList = before ++ cs :: after) (hbefore : ∀ ds ∈ before, Readable ds)
    (hfault : readAlone cs = .error fault) :
    readActions text = .error (fault.renumber (· + before.length)) ∧
      (fault.renumber (· + before.length)).line? = some (1 + before.length) := by
  have hls : ∀ ds ∈ before ++ cs :: after, '\n' ∉ ds := by
    intro ds hds
    rw [← hlines] at hds
    exact Text.not_mem_of_mem_lines hds
  rw [List.forall_mem_append, List.forall_mem_cons] at hls
  obtain ⟨as, has⟩ := exists_linesRead hls.1 hbefore 0
  have hline := ofTokens_of_readAlone_eq_error hls.2.1 hfault before.length
  refine ⟨?_, line?_of_ofTokens hline⟩
  rw [readActions_eq_error_iff, tokens, hlines]
  exact .inl (ofTokens_eq_error_iff.2 ⟨before, cs, after, as, rfl, has, hline⟩)

/-! ### The shortest run of edits that is not sound -/

/-- The outcome of checking actions that were read: all of them if every run of them from the first
passes, and otherwise the fault of the shortest run that does not.  That fault is at the last action of
the run or, if it is of two, at the last two. -/
inductive Judged (actions : List Action) : Except Fault (List Action) → Prop
  | sound (h : ∀ k, checkSpacing (actions.take k) = .ok ()) : Judged actions (.ok actions)
  | rejected {k : ℕ} {a : Action} {fault : Fault} (ha : actions[k]? = some a)
    (hsound : ∀ j ≤ k, checkSpacing (actions.take j) = .ok ())
    (hfault : checkSpacing (actions.take (k + 1)) = .error fault)
    (hline : fault.line? = some a.line)
    (hprevious : ∀ p, fault.previousLine? = some p →
      ∃ b, 0 < k ∧ actions[k - 1]? = some b ∧ b.line = p) :
    Judged actions (.error fault)

theorem checkSpacing_take {actions : List Action} (h : checkSpacing actions = .ok ()) (k : ℕ) :
    checkSpacing (actions.take k) = .ok () := by
  rw [← List.take_append_drop k actions, checkSpacing_append, check_bind_eq_ok] at h
  exact h.1

/-- The check finds the first action at which the list stops being sound. -/
theorem judged_of_checkSpacing_eq_error {actions : List Action}
    (h : checkSpacing actions = .error fault) : Judged actions (.error fault) := by
  obtain ⟨before, a, after, rfl, hsound, hfault⟩ := checkSpacing_eq_error_iff.1 h
  have hspacing := spacingFault_of_checkAfter hfault
  refine .rejected (k := before.length) (a := a) (by simp) ?_ ?_ hspacing.line?_eq ?_
  · intro j hj
    rw [List.take_append_of_le_length hj]
    exact checkSpacing_take hsound j
  · have htake : (before ++ a :: after).take (before.length + 1) = before ++ [a] := by
      rw [List.take_length_add_append, List.take_succ_cons, List.take_zero]
    rw [htake, checkSpacing_eq_error_iff]
    exact ⟨before, a, [], rfl, hsound, hfault⟩
  · intro p hp
    obtain ⟨b, hb, hline⟩ := hspacing.exists_previous hp
    obtain ⟨earlier, rfl⟩ := List.getLast?_eq_some_iff.1 hb
    exact ⟨b, by simp, by simp, hline⟩

/-- Once every line can be read, only the spacing decides. -/
theorem judged_readActions {text : String} {actions : List Action}
    (h : Action.ofTokens (tokens text) = .ok actions) : Judged actions (readActions text) := by
  cases hcheck : checkSpacing actions with
  | ok =>
    rw [readActions_eq_ok_iff.2 ⟨h, hcheck⟩]
    exact .sound (checkSpacing_take hcheck)
  | error fault =>
    rw [readActions_eq_error_iff.2 (.inr ⟨actions, h, hcheck⟩)]
    exact judged_of_checkSpacing_eq_error hcheck

/-! ### Appending lines -/

/-- The text `longer` is `text` with the lines of `more` after its own.  A line feed goes between them
unless `text` is empty or ends in one. -/
def AppendsLines (text more longer : String) : Prop :=
  longer = text ++ "\n" ++ more ∨ (∀ c ∈ text.toList.getLast?, c = '\n') ∧ longer = text ++ more

/-- Appending lines adds tokens with higher numbers and changes none that are there. -/
theorem AppendsLines.exists_tokens {text more longer : String} (h : AppendsLines text more longer) :
    ∃ pieces, tokens text = linesTokens 1 pieces ∧
      tokens longer =
        linesTokens 1 pieces ++ linesTokens (1 + pieces.length) (Text.lines more.toList) := by
  rcases h with rfl | ⟨hend, rfl⟩
  · exact ⟨text.toList.splitOn '\n', tokens_eq text, tokens_append_newline text more⟩
  · refine ⟨Text.lines text.toList, rfl, ?_⟩
    rw [tokens, String.toList_append, Text.lines_append hend, linesTokens_append]

/-- A line that cannot be read is reported whatever comes after it. -/
theorem AppendsLines.readActions_of_unreadable {text more longer : String}
    (h : AppendsLines text more longer) (hfault : Action.ofTokens (tokens text) = .error fault) :
    readActions longer = .error fault := by
  obtain ⟨pieces, htext, hlonger⟩ := h.exists_tokens
  rw [readActions_eq_error_iff, hlonger]
  rw [htext] at hfault
  exact .inl ((Action.ofTokens_append_eq_error_iff line_ne_of_mem_linesTokens).2 (.inl hfault))

/-- A fault of spacing stays the first one if the lines after it can be read. -/
theorem AppendsLines.readActions_of_unsound {text more longer : String} {actions : List Action}
    (h : AppendsLines text more longer) (hread : Action.ofTokens (tokens text) = .ok actions)
    (hfault : checkSpacing actions = .error fault)
    (hmore : ∀ cs ∈ Text.lines more.toList, Readable cs) : readActions longer = .error fault := by
  obtain ⟨pieces, htext, hlonger⟩ := h.exists_tokens
  obtain ⟨appended, happended⟩ :=
    exists_linesRead (fun _ => Text.not_mem_of_mem_lines) hmore pieces.length
  rw [htext] at hread
  rw [readActions_eq_error_iff, hlonger]
  refine .inr ⟨actions ++ appended, ?_, ?_⟩
  · rw [Action.ofTokens_append_eq_ok_iff line_ne_of_mem_linesTokens]
    exact ⟨actions, appended, hread, happended.ofTokens_eq, rfl⟩
  · rw [checkSpacing_append, hfault]
    rfl

/-- Which fault is reported.  The first line that cannot be read comes before everything else and is
reported as it is alone, with its number in the text.  If all lines can be read, the spacing is
judged from the first action on.  Appending lines does not change the fault of a line that cannot be
read, and it does not change a fault of spacing as long as the new lines can be read. -/
theorem first_fault_decides (text : String) :
    (∀ before cs after fault, Text.lines text.toList = before ++ cs :: after →
        (∀ ds ∈ before, Readable ds) → readAlone cs = .error fault →
        readActions text = .error (fault.renumber (· + before.length)) ∧
          (fault.renumber (· + before.length)).line? = some (1 + before.length)) ∧
      ((∀ cs ∈ Text.lines text.toList, Readable cs) →
        ∃ actions, Action.ofTokens (tokens text) = .ok actions ∧
          Judged actions (readActions text)) ∧
      ∀ more longer fault, AppendsLines text more longer →
        (Action.ofTokens (tokens text) = .error fault →
          readActions text = .error fault ∧ readActions longer = .error fault) ∧
        ∀ actions, Action.ofTokens (tokens text) = .ok actions →
          checkSpacing actions = .error fault →
          (∀ cs ∈ Text.lines more.toList, Readable cs) →
          readActions text = .error fault ∧ readActions longer = .error fault := by
  refine ⟨?_, ?_, ?_⟩
  · intro before cs after fault
    exact readActions_of_readAlone_eq_error
  · intro hreadable
    -- lines that can be read alone can be read together, and then only the spacing is left
    obtain ⟨actions, hread⟩ := exists_linesRead (fun _ => Text.not_mem_of_mem_lines) hreadable 0
    exact ⟨actions, hread.ofTokens_eq, judged_readActions hread.ofTokens_eq⟩
  · intro more longer fault happends
    refine ⟨fun hfault => ?_, fun actions hread hfault hmore => ?_⟩
    · exact ⟨readActions_eq_error_iff.2 (.inl hfault), happends.readActions_of_unreadable hfault⟩
    · exact ⟨readActions_eq_error_iff.2 (.inr ⟨actions, hread, hfault⟩),
        happends.readActions_of_unsound hread hfault hmore⟩

/-- An edit that runs backwards before a line with a bad start and one without a verb; and one that
comes too close after the edit before it, with another line appended. -/
theorem first_fault_decides_two_texts :
    (readActions "cut 5 - 1\nmute x - 2\nfly 0 - 1" = .error (.badTime ⟨2, 6⟩ .start (.second "x")) ∧
      (Fault.badTime ⟨2, 6⟩ .start (.second "x")).line? = some 2) ∧
    (∃ actions, Action.ofTokens (tokens "cut 0 - 1\n\nmute 1 - 9") = .ok actions ∧
      Judged actions (readActions "cut 0 - 1\n\nmute 1 - 9")) ∧
    readActions "cut 0 - 1\n\nmute 1 - 9\ncut 8 - 7" = .error (.tooClose 1 3) := by
  have hlines : Text.lines "cut 5 - 1\nmute x - 2\nfly 0 - 1".toList =
      ["cut 5 - 1".toList] ++ "mute x - 2".toList :: ["fly 0 - 1".toList] := by decide +kernel
  have hbackwards : Readable "cut 5 - 1".toList := exists_eq_ok (by decide +kernel)
  have hstart : readAlone "mute x - 2".toList = .error (.badTime ⟨1, 6⟩ .start (.second "x")) := by
    decide +kernel
  have hreadable : ∀ cs ∈ Text.lines "cut 0 - 1\n\nmute 1 - 9".toList,
      (readAlone cs).toOption.isSome = true := by decide +kernel
  have hmore : ∀ cs ∈ Text.lines "cut 8 - 7".toList, (readAlone cs).toOption.isSome = true := by
    decide +kernel
  have hread : (Action.ofTokens (tokens "cut 0 - 1\n\nmute 1 - 9")).toOption.isSome = true := by
    decide +kernel
  have hclose : readActions "cut 0 - 1\n\nmute 1 - 9" = .error (.tooClose 1 3) := by decide +kernel
  obtain ⟨actions, hactions⟩ := exists_eq_ok hread
  have hcheck : checkSpacing actions = .error (.tooClose 1 3) := by
    rw [readActions_eq_error_iff, hactions] at hclose
    obtain h | ⟨_, h, hcheck⟩ := hclose
    · cases h
    · rwa [Except.ok.inj h]
  obtain ⟨-, hjudged, happends⟩ := first_fault_decides "cut 0 - 1\n\nmute 1 - 9"
  refine ⟨?_, hjudged fun cs hcs => exists_eq_ok (hreadable cs hcs), ?_⟩
  · exact (first_fault_decides _).1 _ _ _ _ hlines (List.forall_mem_singleton.2 hbackwards) hstart
  · exact ((happends "cut 8 - 7" _ _ (.inl rfl)).2 actions hactions hcheck
      fun cs hcs => exists_eq_ok (hmore cs hcs)).2

end EditList
