import EditList.Proofs.Action
import EditList.Proofs.Token

/-!
# Reading line by line

The tokens of a line have its number, so no action is read from two lines: a line without tokens gives
nothing, and any other line gives one action or is at fault.  `LinesRead` says this of consecutive
lines, and `linesRead_iff` that it is what `ofTokens` does with their tokens.

* `LinesRead.exists_line`: every action comes from one line;
* `LinesRead.pairwise_line`, `LinesRead.exists_action`: the actions are in the order of their lines, and
  every line with tokens has one;
* `ofTokens_eq_error_iff`: the first line at fault decides.
-/

namespace EditList

/-! ### One line -/

variable {n : Nat} {cs : List Char} {t : Token} {ts : List Token}

/-- The tokens of a line carry its number. -/
theorem line_of_lineTokens (h : lineTokens n cs = t :: ts) :
    t.line = n ∧ ∀ u ∈ ts, u.line = t.line := by
  have hall : ∀ u ∈ t :: ts, u.line = n := by
    intro u hu
    rw [← h] at hu
    exact line_of_mem_tokensFrom hu
  rw [List.forall_mem_cons] at hall
  exact ⟨hall.1, fun u hu => (hall.2 u hu).trans hall.1.symm⟩

theorem line_of_ofLine {a : Action} (htokens : lineTokens n cs = t :: ts)
    (h : Action.ofLine t ts = .ok a) : a.line = n := by
  obtain ⟨verb, start, stop, reason, -, -, -, -, -, rfl⟩ := Action.ofLine_eq_ok_iff.1 h
  exact (line_of_lineTokens htokens).1

/-- A line with a token is read as one action. -/
theorem ofTokens_lineTokens (h : lineTokens n cs = t :: ts) :
    Action.ofTokens (lineTokens n cs) = (Action.ofLine t ts).map fun a => [a] := by
  rw [h]
  exact Action.ofTokens_line (line_of_lineTokens h).2

theorem exists_faultAt_of_ofTokens {fault : Fault}
    (h : Action.ofTokens (lineTokens n cs) = .error fault) :
    ∃ i t, (lineTokens n cs)[i]? = some t ∧ FaultAt i t fault := by
  cases htokens : lineTokens n cs with
  | nil =>
    rw [htokens] at h
    cases h
  | cons t ts =>
    rw [ofTokens_lineTokens htokens] at h
    cases hread : Action.ofLine t ts with
    | ok a =>
      rw [hread] at h
      cases h
    | error fault' =>
      rw [hread] at h
      obtain rfl := Except.error.inj h
      obtain ⟨u, i, hu, hfault, -⟩ := Action.ofLine_eq_error_iff.1 hread
      exact ⟨i, u, hu, hfault⟩

/-- A line that cannot be read is the line that its fault names. -/
theorem line?_of_ofTokens {fault : Fault}
    (h : Action.ofTokens (lineTokens n cs) = .error fault) : fault.line? = some n := by
  obtain ⟨i, t, ht, hfault⟩ := exists_faultAt_of_ofTokens h
  have hline : t.line = n := line_of_mem_tokensFrom (List.mem_of_getElem? ht)
  rw [hfault.position_eq.1, hline]

/-! ### Consecutive lines -/

variable {ls : List (List Char)} {a : Action} {actions : List Action}

/-- The tokens of a line and those of the lines after it have no number in common. -/
theorem line_ne_of_mem_lineTokens :
    ∀ t ∈ lineTokens n cs, ∀ u ∈ linesTokens (n + 1) ls, t.line ≠ u.line := by
  intro t ht u hu
  have heq : t.line = n := line_of_mem_tokensFrom ht
  have hle := le_line_of_mem_linesTokens hu
  omega

/-- The actions of consecutive lines, the first of which has the number `n`. -/
inductive LinesRead : Nat → List (List Char) → List Action → Prop
  | nil (n : Nat) : LinesRead n [] []
  | blank {n : Nat} {cs : List Char} {ls : List (List Char)} {actions : List Action}
    (htokens : lineTokens n cs = []) (hrest : LinesRead (n + 1) ls actions) :
    LinesRead n (cs :: ls) actions
  | edit {n : Nat} {cs : List Char} {ls : List (List Char)} {t : Token} {ts : List Token} {a : Action}
    {actions : List Action} (htokens : lineTokens n cs = t :: ts)
    (hline : Action.ofLine t ts = .ok a) (hrest : LinesRead (n + 1) ls actions) :
    LinesRead n (cs :: ls) (a :: actions)

theorem LinesRead.ofTokens_eq (h : LinesRead n ls actions) :
    Action.ofTokens (linesTokens n ls) = .ok actions := by
  induction h with
  | nil n => rfl
  | blank htokens _ ih => rw [linesTokens, htokens, List.nil_append, ih]
  | edit htokens hline _ ih =>
    obtain ⟨ht, hts⟩ := line_of_lineTokens htokens
    rw [linesTokens, htokens, List.cons_append]
    apply Action.ofTokens_line_append hts _ hline ih
    intro u hu
    have hle := le_line_of_mem_linesTokens hu
    omega

theorem linesRead_of_ofTokens (h : Action.ofTokens (linesTokens n ls) = .ok actions) :
    LinesRead n ls actions := by
  induction ls generalizing n actions with
  | nil =>
    obtain rfl := Except.ok.inj h
    exact .nil n
  | cons cs ls ih =>
    -- the first line and the others have no number in common, so they are read apart
    rw [linesTokens, Action.ofTokens_append_eq_ok_iff line_ne_of_mem_lineTokens] at h
    obtain ⟨as, bs, has, hbs, rfl⟩ := h
    cases htokens : lineTokens n cs with
    | nil =>
      rw [htokens] at has
      obtain rfl := Except.ok.inj has
      exact .blank htokens (ih hbs)
    | cons t ts =>
      rw [ofTokens_lineTokens htokens] at has
      cases hline : Action.ofLine t ts with
      | error fault =>
        rw [hline] at has
        cases has
      | ok a =>
        rw [hline] at has
        obtain rfl := Except.ok.inj has
        exact .edit htokens hline (ih hbs)

/-- Lines are read one by one exactly when all of their tokens are read at once. -/
theorem linesRead_iff :
    LinesRead n ls actions ↔ Action.ofTokens (linesTokens n ls) = .ok actions :=
  ⟨LinesRead.ofTokens_eq, linesRead_of_ofTokens⟩

namespace LinesRead

/-- Every action comes from one of the lines. -/
theorem exists_line (h : LinesRead n ls actions) (ha : a ∈ actions) :
    ∃ i cs t ts, ls[i]? = some cs ∧ lineTokens (n + i) cs = t :: ts ∧
      Action.ofLine t ts = .ok a := by
  induction h with
  | nil => cases ha
  | blank _ _ ih =>
    obtain ⟨i, cs, t, ts, hcs, htokens, hline⟩ := ih ha
    exact ⟨i + 1, cs, t, ts, hcs, by rwa [Nat.add_comm i, ← Nat.add_assoc], hline⟩
  | edit htokens hline _ ih =>
    rcases List.mem_cons.1 ha with rfl | ha
    · exact ⟨0, _, _, _, rfl, htokens, hline⟩
    · obtain ⟨i, cs, t, ts, hcs, htokens, hline⟩ := ih ha
      exact ⟨i + 1, cs, t, ts, hcs, by rwa [Nat.add_comm i, ← Nat.add_assoc], hline⟩

theorem le_line (h : LinesRead n ls actions) (ha : a ∈ actions) : n ≤ a.line := by
  obtain ⟨i, cs, t, ts, -, htokens, hline⟩ := h.exists_line ha
  rw [line_of_ofLine htokens hline]
  exact Nat.le_add_right n i

/-- The actions stand in the order of their lines, and no two of them on one line. -/
theorem pairwise_line (h : LinesRead n ls actions) :
    actions.Pairwise fun a b => a.line < b.line := by
  induction h with
  | nil => exact .nil
  | blank _ _ ih => exact ih
  | edit htokens hline hrest ih =>
    refine .cons (fun b hb => ?_) ih
    rw [line_of_ofLine htokens hline]
    exact hrest.le_line hb

/-- No line with a token is passed over. -/
theorem exists_action (h : LinesRead n ls actions) {t : Token} (ht : t ∈ linesTokens n ls) :
    ∃ a ∈ actions, a.line = t.line := by
  induction h with
  | nil => cases ht
  | blank htokens _ ih =>
    rw [linesTokens, htokens, List.nil_append] at ht
    exact ih ht
  | edit htokens hline _ ih =>
    rw [linesTokens, List.mem_append] at ht
    rcases ht with ht | ht
    · refine ⟨_, List.mem_cons_self, ?_⟩
      rw [line_of_ofLine htokens hline]
      exact (line_of_mem_tokensFrom ht).symm
    · obtain ⟨a, ha, heq⟩ := ih ht
      exact ⟨a, List.mem_cons_of_mem _ ha, heq⟩

end LinesRead

/-! ### Lines at fault -/

/-- Reading fails exactly when the lines up to some line can be read and that line cannot, with the
fault of that line. -/
theorem ofTokens_eq_error_iff {fault : Fault} :
    Action.ofTokens (linesTokens n ls) = .error fault ↔
      ∃ before cs after as, ls = before ++ cs :: after ∧ LinesRead n before as ∧
        Action.ofTokens (lineTokens (n + before.length) cs) = .error fault := by
  constructor
  · intro h
    induction ls generalizing n with
    | nil => cases h
    | cons cs ls ih =>
      rw [linesTokens, Action.ofTokens_append_eq_error_iff line_ne_of_mem_lineTokens] at h
      -- the first line fails, or it is read and the failure is in the others
      rcases h with h | ⟨as, has, h⟩
      · exact ⟨[], cs, ls, [], rfl, .nil n, h⟩
      · obtain ⟨before, ds, after, bs, rfl, hbefore, hline⟩ := ih h
        refine ⟨cs :: before, ds, after, as ++ bs, rfl, ?_, ?_⟩
        · rw [linesRead_iff, linesTokens, Action.ofTokens_append_eq_ok_iff line_ne_of_mem_lineTokens]
          exact ⟨as, bs, has, hbefore.ofTokens_eq, rfl⟩
        · rwa [List.length_cons, Nat.add_comm before.length, ← Nat.add_assoc]
  · rintro ⟨before, cs, after, as, rfl, hbefore, hline⟩
    rw [linesTokens_append, Action.ofTokens_append_eq_error_iff line_ne_of_mem_linesTokens]
    refine .inr ⟨as, hbefore.ofTokens_eq, ?_⟩
    rw [linesTokens, Action.ofTokens_append_eq_error_iff line_ne_of_mem_lineTokens]
    exact .inl hline

end EditList
