import EditList.Proofs.Action.Lines
import EditList.Proofs.Graph.Walk
import EditList.Proofs.Spacing
import EditList.Proofs.Text.Lines

/-!
# Renumbering lines

What is read from a line does not depend on the number of the line: with another number the same action
or the same fault comes out, with the new number in it (`ofTokens_lineTokens_renumber`).  As long as
different lines keep different numbers this holds of whole texts (`ofTokens_map_renumber`).  The checks
put the new numbers into their faults (`checkSpacing_renumber`), and a graph has none
(`ofActions_renumber`).

So where some of the lines are left out, the other ones are read as before, with the numbers that they
have then (`LinesRead.keptLines`).
-/

namespace EditList

/-! ### The parts that carry numbers -/

/-- The place with the number of its line replaced. -/
def Position.renumber (f : ℕ → ℕ) (p : Position) : Position :=
  { p with line := f p.line }

/-- The token with the number of its line replaced. -/
def Token.renumber (f : ℕ → ℕ) (t : Token) : Token :=
  { t with line := f t.line }

/-- The action with the number of its line replaced, in its tokens too. -/
def Action.renumber (f : ℕ → ℕ) (a : Action) : Action :=
  { a with line := f a.line, tokens := a.tokens.map (Token.renumber f) }

/-- The fault with every number of a line replaced. -/
def Fault.renumber (f : ℕ → ℕ) : Fault → Fault
  | .grouping line detail => .grouping (f line) detail
  | .unknownVerb p word => .unknownVerb (p.renumber f) word
  | .badTime p bound cause => .badTime (p.renumber f) bound cause
  | .badReason p cause => .badReason (p.renumber f) cause
  | .surplusToken p count => .surplusToken (p.renumber f) count
  | .reversed line start stop => .reversed (f line) start stop
  | .tooShort line start stop threshold => .tooShort (f line) start stop threshold
  | .outOfOrder previousLine line => .outOfOrder (f previousLine) (f line)
  | .tooClose previousLine line => .tooClose (f previousLine) (f line)
  | .noActions => .noActions
  | .unsupportedVerb index word => .unsupportedVerb index word
  | .encoder cause => .encoder cause
  | .noDirectory path cause => .noDirectory path cause
  | .external description causes => .external description causes

/-! ### Tokens -/

section Line

variable (f : ℕ → ℕ)

/-- The number of a line goes into its tokens and into nothing else. -/
theorem tokensFrom_renumber (line : ℕ) (field : Field) (p : Pending) (column : ℕ) (cs : List Char) :
    tokensFrom (f line) field p column cs =
      (tokensFrom line field p column cs).map (Token.renumber f) := by
  induction cs generalizing field p column with
  | nil =>
    cases hempty : p.taken.isEmpty with
    | true => simp [tokensFrom, hempty]
    | false =>
      rw [tokensFrom_nil hempty, tokensFrom_nil hempty]
      rfl
  | cons c cs ih =>
    rw [tokensFrom, tokensFrom]
    cases field.step c p.taken.isEmpty with
    | push => exact ih ..
    | skip => exact ih ..
    | advance next => exact congrArg _ (ih ..)
    | finish => rfl
    | abandon => rfl

theorem lineTokens_renumber (n : ℕ) (cs : List Char) :
    lineTokens (f n) cs = (lineTokens n cs).map (Token.renumber f) :=
  tokensFrom_renumber f ..

/-! ### Actions and faults -/

namespace Action

theorem readVerb_renumber (t : Token) :
    readVerb (t.renumber f) = (readVerb t).mapError (Fault.renumber f) := by
  unfold readVerb Token.renumber
  cases Verb.ofName? t.text <;> rfl

theorem readTime_renumber (bound : Bound) (t? : Option Token) :
    readTime bound (t?.map (Token.renumber f)) =
      (readTime bound t?).mapError (Fault.renumber f) := by
  cases t? with
  | none => rfl
  | some t =>
    simp only [readTime, Option.map_some, Token.renumber]
    cases Time.parse t.text <;> rfl

theorem readReason_renumber (t? : Option Token) :
    readReason (t?.map (Token.renumber f)) = (readReason t?).mapError (Fault.renumber f) := by
  cases t? with
  | none => rfl
  | some t =>
    simp only [readReason, Option.map_some, Token.renumber]
    cases Reason.parse t.text <;> rfl

theorem refuseSurplus_renumber (t? : Option Token) :
    refuseSurplus (t?.map (Token.renumber f)) = (refuseSurplus t?).mapError (Fault.renumber f) := by
  cases t? <;> rfl

/-- Reading a line carries its number along, into the action or into the fault. -/
theorem ofLine_renumber (t : Token) (ts : List Token) :
    ofLine (t.renumber f) (ts.map (Token.renumber f)) =
      ((ofLine t ts).map (renumber f)).mapError (Fault.renumber f) := by
  unfold ofLine
  simp only [List.getElem?_map, readVerb_renumber, readTime_renumber, readReason_renumber,
    refuseSurplus_renumber]
  cases readVerb t with
  | error fault => rfl
  | ok verb =>
  cases readTime .start ts[0]? with
  | error fault => rfl
  | ok start =>
  cases readTime .stop ts[1]? with
  | error fault => rfl
  | ok stop =>
  cases readReason ts[2]? with
  | error fault => rfl
  | ok reason => cases refuseSurplus ts[3]? <;> rfl

end Action

/-- The same line with another number is read as the same, with that number. -/
theorem ofTokens_lineTokens_renumber (n : ℕ) (cs : List Char) :
    Action.ofTokens (lineTokens (f n) cs) =
      ((Action.ofTokens (lineTokens n cs)).map (List.map (Action.renumber f))).mapError
        (Fault.renumber f) := by
  have hlines := lineTokens_renumber f n cs
  cases htokens : lineTokens n cs with
  | nil =>
    rw [hlines, htokens]
    rfl
  | cons t ts =>
    rw [htokens] at hlines
    rw [← htokens, ofTokens_lineTokens hlines, ofTokens_lineTokens htokens, Action.ofLine_renumber]
    cases Action.ofLine t ts <;> rfl

end Line

/-! ### Texts with other numbers -/

section Injective

variable {f : ℕ → ℕ}

theorem linesTokens_add (k n : ℕ) (ls : List (List Char)) :
    linesTokens (n + k) ls = (linesTokens n ls).map (Token.renumber (· + k)) := by
  induction ls generalizing n with
  | nil => rfl
  | cons cs ls ih =>
    rw [linesTokens, linesTokens, List.map_append, ← lineTokens_renumber, ← ih, Nat.add_right_comm]

/-- Different lines keep different numbers, so the runs stay as they were. -/
theorem lineGroups_map_renumber (hf : Function.Injective f) (ts : List Token) :
    lineGroups (ts.map (Token.renumber f)) =
      (lineGroups ts).map (Prod.map (Token.renumber f) (List.map (Token.renumber f))) := by
  induction ts with
  | nil => rfl
  | cons t ts ih =>
    have hline : ∀ u : Token, (t.renumber f).line = (u.renumber f).line ↔ t.line = u.line :=
      fun u => hf.eq_iff
    rw [List.map_cons, lineGroups, ih, lineGroups]
    cases lineGroups ts with
    | nil => rfl
    | cons group groups =>
      simp only [List.map_cons, Prod.map, hline]
      split <;> rfl

namespace Action

theorem mapM_map_renumber (groups : List (Token × List Token)) :
    (groups.map (Prod.map (Token.renumber f) (List.map (Token.renumber f)))).mapM
        (fun (first, others) => ofLine first others) =
      ((groups.mapM fun (first, others) => ofLine first others).map
        (List.map (renumber f))).mapError (Fault.renumber f) := by
  induction groups with
  | nil => rfl
  | cons group groups ih =>
    rw [List.map_cons, List.mapM_cons, List.mapM_cons, ih]
    simp only [Prod.map]
    rw [ofLine_renumber]
    cases ofLine group.1 group.2 with
    | error fault => rfl
    | ok a => cases groups.mapM fun (first, others) => ofLine first others <;> rfl

/-- Reading tokens carries the numbers along, as long as different lines keep different numbers. -/
theorem ofTokens_map_renumber (hf : Function.Injective f) (ts : List Token) :
    ofTokens (ts.map (Token.renumber f)) =
      ((ofTokens ts).map (List.map (renumber f))).mapError (Fault.renumber f) := by
  rw [ofTokens, lineGroups_map_renumber hf, mapM_map_renumber, ofTokens]

end Action

end Injective

/-! ### Checks and graphs -/

section Compile

variable {f : ℕ → ℕ}

theorem checkLength_renumber (a : Action) :
    checkLength (a.renumber f) = (checkLength a).mapError (Fault.renumber f) := by
  simp only [checkLength, Action.renumber, apply_ite (Except.mapError (Fault.renumber f))]
  rfl

theorem checkGap_renumber (previous a : Action) :
    checkGap (previous.renumber f) (a.renumber f) =
      (checkGap previous a).mapError (Fault.renumber f) := by
  simp only [checkGap, Action.renumber, apply_ite (Except.mapError (Fault.renumber f))]
  rfl

/-- Checking an action against the one before it looks at the lines only to name them. -/
theorem checkAfter_renumber (previous? : Option Action) (a : Action) :
    checkAfter (previous?.map (Action.renumber f)) (a.renumber f) =
      (checkAfter previous? a).mapError (Fault.renumber f) := by
  unfold checkAfter
  rw [mapError_bind, checkLength_renumber]
  cases previous? with
  | none => rfl
  | some previous => simp only [Option.map_some, checkGap_renumber]

theorem checkSpacingAfter_renumber (previous? : Option Action) (actions : List Action) :
    checkSpacingAfter (previous?.map (Action.renumber f)) (actions.map (Action.renumber f)) =
      (checkSpacingAfter previous? actions).mapError (Fault.renumber f) := by
  induction actions generalizing previous? with
  | nil => rfl
  | cons a rest ih =>
    rw [List.map_cons, checkSpacingAfter_cons, checkSpacingAfter_cons, mapError_bind,
      checkAfter_renumber, ← ih, Option.map_some]

theorem checkSpacing_renumber (actions : List Action) :
    checkSpacing (actions.map (Action.renumber f)) =
      (checkSpacing actions).mapError (Fault.renumber f) :=
  checkSpacingAfter_renumber none actions

theorem slicesAfter_renumber (previous? : Option Action) (actions : List Action) :
    slicesAfter (previous?.map (Action.renumber f)) (actions.map (Action.renumber f)) =
      slicesAfter previous? actions := by
  induction actions generalizing previous? with
  | nil => rfl
  | cons a rest ih =>
    have hslices : (a.renumber f).slices (previous?.map (Action.renumber f))
        (rest.head?.map (Action.renumber f)) = a.slices previous? rest.head? := by
      cases previous? <;> cases rest.head? <;> rfl
    rw [List.map_cons, slicesAfter, List.head?_map, hslices, slicesAfter]
    exact congrArg _ (ih (some a))

/-- The graph does not show the lines of the actions. -/
theorem ofActions_renumber (actions : List Action) :
    Graph.ofActions (actions.map (Action.renumber f)) = Graph.ofActions actions := by
  cases actions with
  | nil => rfl
  | cons first rest =>
    have hkept : keptSlices (first.renumber f) (rest.map (Action.renumber f)) =
        keptSlices first rest :=
      congrArg (leadIn first ++ ·) (slicesAfter_renumber none (first :: rest))
    have hlast : ((first :: rest).map (Action.renumber f)).getLast (by simp) =
        ((first :: rest).getLast (List.cons_ne_nil _ _)).renumber f := List.getLast_map _
    simp only [List.map_cons] at hlast
    rw [List.map_cons, ofActions_cons, ofActions_cons, hkept, hlast]
    rfl

end Compile

/-! ### Leaving lines out -/

/-- The lines that are kept are read as they were among the others; `f` gives the numbers that they
have then. -/
theorem LinesRead.keptLines {keep : ℕ → Bool} {f : ℕ → ℕ} {n : ℕ} {ls : List (List Char)}
    {actions : List Action} (hf : ∀ m, n ≤ m → f (m + 1) = if keep m then f m + 1 else f m)
    (h : LinesRead n ls actions) :
    LinesRead (f n) (Text.keptLines keep n ls)
      ((actions.filter fun a => keep a.line).map (Action.renumber f)) := by
  induction h with
  | nil n => exact .nil _
  -- a line that is left out leaves the number of the next one as it is
  | @blank n cs ls actions htokens _ ih =>
    have hrest := ih fun m hm => hf m (Nat.le_of_succ_le hm)
    have hnext := hf n (Nat.le_refl n)
    rw [Text.keptLines]
    cases hkeep : keep n with
    | false =>
      rw [hkeep, if_neg Bool.false_ne_true] at hnext
      rw [if_neg Bool.false_ne_true]
      exact hnext ▸ hrest
    | true =>
      rw [hkeep, if_pos rfl] at hnext
      rw [if_pos rfl]
      refine .blank ?_ (hnext ▸ hrest)
      rw [lineTokens_renumber, htokens, List.map_nil]
  | @edit n cs ls t ts a actions htokens hline _ ih =>
    have hrest := ih fun m hm => hf m (Nat.le_of_succ_le hm)
    have hnext := hf n (Nat.le_refl n)
    have hnumber : a.line = n := line_of_ofLine htokens hline
    rw [Text.keptLines, List.filter_cons, hnumber]
    cases hkeep : keep n with
    | false =>
      rw [hkeep, if_neg Bool.false_ne_true] at hnext
      rw [if_neg Bool.false_ne_true, if_neg Bool.false_ne_true]
      exact hnext ▸ hrest
    | true =>
      rw [hkeep, if_pos rfl] at hnext
      rw [if_pos rfl, if_pos rfl, List.map_cons]
      have htokens' : lineTokens (f n) cs = t.renumber f :: ts.map (Token.renumber f) := by
        rw [lineTokens_renumber, htokens, List.map_cons]
      have hline' : Action.ofLine (t.renumber f) (ts.map (Token.renumber f)) =
          .ok (a.renumber f) := by
        rw [Action.ofLine_renumber, hline]
        rfl
      exact .edit htokens' hline' (hnext ▸ hrest)

end EditList
