import EditList.Proofs.Reason
import EditList.Proofs.Token.Extent

/-!
# Reasons that are written again

The reason of an action can be put back into an edit list.  It was read from the fourth token of a line,
which belongs to the fourth field (`getElem?_splitFields`).  So the token has no closing parenthesis, and
like every token it has neither a number sign nor a line feed, whether or not the line closes the reason.
The text of the reason takes its characters from there, hence it can stand between parentheses
(`isWritable_of_mem`), and a line with it is read as one action with the same reason
(`Reason.IsWritable.exists_ofTokens`).

* `reasons_read_back`: what is read as a reason, alone or on a line, is normal and reads back.
-/

namespace EditList

/-! ### The token of a reason -/

/-- The tokens come from the fields in their order. -/
theorem getElem?_splitFields {line column i : ℕ} {unbroken : Bool} {fields : List Field}
    {cs : List Char} {t : Token}
    (h : (splitFields line unbroken fields column cs)[i]? = some t) :
    ∃ field first rest, fields[i]? = some field ∧ t = field.token line first rest := by
  induction fields generalizing i column cs with
  | nil => simp [splitFields] at h
  | cons field fields ih =>
    obtain ⟨before, rest, -, -, hnone | ⟨-, hlast⟩ | ⟨d, behind, -, hnext⟩⟩ :=
      splitFields_cons line unbroken field fields column cs
    · simp [hnone] at h
    · rw [hlast, List.getElem?_singleton] at h
      split_ifs at h with hi
      subst hi
      exact ⟨field, _, rest, rfl, (Option.some.inj h).symm⟩
    · rw [hnext] at h
      cases i with
      | zero => exact ⟨field, _, rest, rfl, (Option.some.inj h).symm⟩
      | succ i =>
        rw [List.getElem?_cons_succ] at h
        exact ih h

/-- A reason ends at the first closing parenthesis, if there is one. -/
theorem Field.close_not_mem_body (cs : List Char) : ')' ∉ Field.reason.body cs := by
  have hends : ∀ c ∈ Field.reason.body cs, (!Field.reason.ends c) = true :=
    List.all_eq_true.1 List.all_takeWhile
  exact fun hmem => absurd (hends ')' hmem) (by decide)

/-- No reason holds the parenthesis that would close it. -/
theorem close_not_mem_of_lineTokens {n : ℕ} {cs : List Char} {t : Token}
    (h : (lineTokens n cs)[3]? = some t) : ')' ∉ t.text.toList := by
  rw [lineTokens_eq_splitLine] at h
  obtain ⟨field, first, rest, hfield, rfl⟩ := getElem?_splitFields h
  obtain rfl : Field.reason = field := Option.some.inj hfield
  rw [Field.token, String.toList_ofList]
  exact fun hmem => Field.close_not_mem_body rest (Text.mem_of_mem_trimEnd hmem)

/-! ### Reasons from a line -/

/-- A normal reason whose text can stand between parentheses on a line. -/
structure Reason.IsWritable (r : Reason) : Prop extends r.IsNormal where
  inLine : '\n' ∉ r.text.toList
  uncommented : '#' ∉ r.text.toList
  unended : ')' ∉ r.text.toList

theorem Reason.isWritable_none : Reason.none.IsWritable :=
  ⟨isNormal_none, List.not_mem_nil, List.not_mem_nil, List.not_mem_nil⟩

/-- A reason that was read can be written again. -/
theorem isWritable_of_mem {text : String} {actions : List Action} {a : Action}
    (h : Action.ofTokens (tokens text) = .ok actions) (ha : a ∈ actions) :
    a.reason.IsWritable := by
  obtain ⟨i, cs, t, ts, hcs, htokens, hline⟩ := (linesRead_iff.2 h).exists_line ha
  obtain ⟨verb, start, stop, reason, -, -, -, hreason, -, rfl⟩ := Action.ofLine_eq_ok_iff.1 hline
  show reason.IsWritable
  cases hfourth : ts[2]? with
  | none =>
    rw [hfourth] at hreason
    obtain rfl := Except.ok.inj hreason
    exact Reason.isWritable_none
  | some u =>
    rw [hfourth] at hreason
    have hu : (lineTokens (1 + i) cs)[3]? = some u := by
      rw [htokens]
      exact hfourth
    have hnewline := Text.not_mem_of_mem_lines (List.mem_of_getElem? hcs)
    have hfound := foundOn_of_mem_lineTokens hnewline (List.mem_of_getElem? hu)
    have hspells := Reason.parse_eq_ok_iff.1 (Action.readReason_some_eq_ok_iff.1 hreason)
    -- what the token does not have, the text of the reason does not have either
    have hsubset := hspells.text_sublist.subset
    exact ⟨hspells.isNormal, fun hmem => hfound.newline_not_mem (hsubset hmem),
      fun hmem => hfound.comment_not_mem (hsubset hmem),
      fun hmem => close_not_mem_of_lineTokens hu (hsubset hmem)⟩

/-! ### A line for a reason -/

/-- A line on which only the reason is open. -/
theorem exists_lineTokens_cut {cs : List Char} (hcomment : '#' ∉ cs) (hclose : ')' ∉ cs) :
    ∃ u, lineTokens 1 ("cut 1-2 (".toList ++ (cs ++ [')'])) =
        [⟨"cut", 1, 1⟩, ⟨"1", 1, 5⟩, ⟨"2", 1, 7⟩, u] ∧
      u.text = String.ofList (Text.trim cs) := by
  -- up to the parenthesis the line is known and can be followed by evaluation
  have hopen : lineTokens 1 ("cut 1-2 (".toList ++ (cs ++ [')'])) =
      ⟨"cut", 1, 1⟩ :: ⟨"1", 1, 5⟩ :: ⟨"2", 1, 7⟩ ::
        tokensFrom 1 .reason .empty 10 (cs ++ [')']) := rfl
  rw [hopen, tokensFrom_reason hcomment hclose]
  exact ⟨_, rfl, rfl⟩

theorem exists_ofLine_cut {u : Token} {r : Reason} (h : Reason.parse u.text = .ok r) :
    ∃ b, Action.ofLine ⟨"cut", 1, 1⟩ [⟨"1", 1, 5⟩, ⟨"2", 1, 7⟩, u] = .ok b ∧ b.reason = r := by
  obtain ⟨start, hstart⟩ : ∃ t, Time.parse "1" = .ok t := exists_eq_ok (by decide +kernel)
  obtain ⟨stop, hstop⟩ : ∃ t, Time.parse "2" = .ok t := exists_eq_ok (by decide +kernel)
  refine ⟨_, Action.ofLine_eq_ok_iff.2 ⟨.cut, start, stop, r, rfl, ?_, ?_, ?_, rfl, rfl⟩, rfl⟩
  · exact Action.readTime_some_eq_ok_iff.2 hstart
  · exact Action.readTime_some_eq_ok_iff.2 hstop
  · exact Action.readReason_some_eq_ok_iff.2 h

/-- A reason that can be written is read back from a line of its own. -/
theorem Reason.IsWritable.exists_ofTokens {r : Reason} (h : r.IsWritable) :
    ∃ b, Action.ofTokens (tokens ("cut 1-2 (" ++ r.text ++ ")")) = .ok [b] ∧ b.reason = r := by
  have hchars : ("cut 1-2 (" ++ r.text ++ ")").toList =
      "cut 1-2 (".toList ++ (r.text.toList ++ [')']) := by simp
  have hline : '\n' ∉ "cut 1-2 (".toList ++ (r.text.toList ++ [')']) := by simp [h.inLine]
  obtain ⟨u, htokens, htext⟩ := exists_lineTokens_cut h.uncommented h.unended
  have hparse : Reason.parse u.text = .ok r := by
    rw [htext, Reason.parse_trim, String.ofList_toList, h.parse_text]
  obtain ⟨b, hb, hreason⟩ := exists_ofLine_cut hparse
  refine ⟨b, ?_, hreason⟩
  rw [tokens_eq, hchars, List.splitOn_eq_singleton hline, linesTokens, linesTokens, List.append_nil,
    ofTokens_lineTokens htokens, hb]
  rfl

/-- A reason is refused for its colons alone.  One that is read has parts without blanks around them, is
empty only where nothing was written, and reads back from its own text.  One that an action has reads back
from a line as well. -/
theorem reasons_read_back (text list : String) :
    ((∃ e, Reason.parse text = .error e) ↔ 2 ≤ text.toList.count ':') ∧
      (∀ r, Reason.parse text = .ok r → Reason.parse r.text = .ok r ∧ r.IsNormal ∧
        (r.isEmpty = true ↔ Text.IsBlankRun text.toList)) ∧
      ∀ actions, Action.ofTokens (tokens list) = .ok actions → ∀ a ∈ actions,
        ∃ b, Action.ofTokens (tokens ("cut 1-2 (" ++ a.reason.text ++ ")")) = .ok [b] ∧
          b.reason = a.reason := by
  refine ⟨Reason.exists_parse_eq_error_iff, fun r h => ?_, fun actions h a ha => ?_⟩
  · have hspells := Reason.parse_eq_ok_iff.1 h
    have hnormal := hspells.isNormal
    exact ⟨hnormal.parse_text, hnormal, hspells.isEmpty_iff⟩
  · exact (isWritable_of_mem h ha).exists_ofTokens

/-- A lone colon, which is not an empty reason.  A reason that its line does not close, with a parenthesis
and a carriage return in its specifier, and one without a category. -/
theorem reasons_read_back_unclosed :
    Reason.parse " : " = .ok ⟨"", some ""⟩ ∧ Reason.parse ":" = .ok ⟨"", some ""⟩ ∧
      ¬ Text.IsBlankRun " : ".toList ∧
      ∃ a b, Action.ofTokens (tokens "mute 0-1 (\u3000Bad : (f\rword \ncut 3 - 4 ( : x ) y") =
          .ok [a, b] ∧
        a.reason = ⟨"Bad", some "(f\rword"⟩ ∧ b.reason = ⟨"", some "x"⟩ ∧
        (∃ c, Action.ofTokens (tokens "cut 1-2 (Bad:(f\rword)") = .ok [c] ∧
          c.reason = ⟨"Bad", some "(f\rword"⟩) ∧
        ∃ d, Action.ofTokens (tokens "cut 1-2 (:x)") = .ok [d] ∧ d.reason = ⟨"", some "x"⟩ := by
  have hparse : Reason.parse " : " = .ok ⟨"", some ""⟩ := by decide +kernel
  have hreasons : (Action.ofTokens
      (tokens "mute 0-1 (\u3000Bad : (f\rword \ncut 3 - 4 ( : x ) y")).toOption.map
        (List.map Action.reason) = some [⟨"Bad", some "(f\rword"⟩, ⟨"", some "x"⟩] := by
    decide +kernel
  obtain ⟨actions, hactions, hmap⟩ := Option.map_eq_some_iff.1 hreasons
  obtain ⟨a, as, rfl, ha, hmap⟩ := List.map_eq_cons_iff.1 hmap
  obtain ⟨b, bs, rfl, hb, hmap⟩ := List.map_eq_cons_iff.1 hmap
  obtain rfl := List.map_eq_nil_iff.1 hmap
  have hread := eq_ok_of_toOption hactions
  obtain ⟨-, hnormal, hline⟩ := reasons_read_back " : "
    "mute 0-1 (\u3000Bad : (f\rword \ncut 3 - 4 ( : x ) y"
  obtain ⟨hback, -, hempty⟩ := hnormal _ hparse
  obtain ⟨c, hc, hca⟩ := hline [a, b] hread a (by simp)
  obtain ⟨d, hd, hdb⟩ := hline [a, b] hread b (by simp)
  rw [ha] at hc hca
  rw [hb] at hd hdb
  refine ⟨hparse, hback, ?_, a, b, hread, ha, hb, ⟨c, hc, hca⟩, d, hd, hdb⟩
  rw [← hempty]
  decide

end EditList
