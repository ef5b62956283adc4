import EditList.Proofs.Action.Lines
import EditList.Proofs.Script
import EditList.Proofs.Spacing
import EditList.Proofs.Token.Place

/-!
# Where faults point

A text that does not compile has no tokens at all, or one of its edits is at fault.  In the second case
the fault points at a line of the text; a fault of reading points at a token of that line, and a fault
of two edits at neighbours, with no token on a line between them (`Fault.PointsInto`).

* `compile_faults_point_into_text`: the statement for every text.
-/

namespace EditList

/-! ### What a fault is about -/

namespace Fault

/-- Whether a fault is that an edit cannot be read, runs backwards, is too short, or does not go with
the edit before it. -/
def isOfEdit : Fault → Bool
  | .unknownVerb .. => true
  | .badTime .. => true
  | .badReason .. => true
  | .reversed .. => true
  | .tooShort .. => true
  | .outOfOrder .. => true
  | .tooClose .. => true
  | _ => false

/-- Which token of a line a fault of reading is about, counted from zero: the verb, the start, the stop
or the reason. -/
def tokenIndex? : Fault → Option ℕ
  | .unknownVerb .. => some 0
  | .badTime _ .start _ => some 1
  | .badTime _ .stop _ => some 2
  | .badReason .. => some 3
  | _ => none

end Fault

/-- The tokens on one line of a text. -/
def tokensOn (text : String) (line : ℕ) : List Token :=
  (tokens text).filter fun t => t.line = line

/-- A fault of an edit that points at what it is about. -/
structure Fault.PointsInto (fault : Fault) (text : String) : Prop where
  isOfEdit : fault.isOfEdit = true
  /-- The line is one of the text. -/
  line : ∃ l, fault.line? = some l ∧ 1 ≤ l ∧ l ≤ (Text.lines text.toList).length
  /-- A fault of reading is at the place of its token, which is inside the line. -/
  token : ∀ i, fault.tokenIndex? = some i → ∃ t cs, (tokensOn text t.line)[i]? = some t ∧
    fault.line? = some t.line ∧ fault.column? = some t.column ∧
    (Text.lines text.toList)[t.line - 1]? = some cs ∧ 1 ≤ t.column ∧ t.column ≤ cs.length
  /-- Of two edits the other one is before, and no line between them has a token. -/
  previous : ∀ p, fault.previousLine? = some p → ∃ l, fault.line? = some l ∧ p < l ∧
    ∀ t ∈ tokens text, ¬ (p < t.line ∧ t.line < l)

/-! ### Faults of reading -/

variable {text : String} {fault : Fault} {actions : List Action}

/-- The tokens of a text with the number of a line are the tokens of that line. -/
theorem tokensOn_eq {i : ℕ} {cs : List Char} (h : (Text.lines text.toList)[i]? = some cs) :
    tokensOn text (1 + i) = lineTokens (1 + i) cs :=
  filter_linesTokens h

/-- A token in its place has a fault of reading that is about this place. -/
theorem FaultAt.isOfEdit {j : ℕ} {t : Token} (h : FaultAt j t fault) (hj : j < 4) :
    fault.isOfEdit = true ∧ fault.tokenIndex? = some j ∧ fault.previousLine? = none := by
  cases h with
  | surplus => exact absurd hj (Nat.lt_irrefl 4)
  | _ => exact ⟨rfl, rfl, rfl⟩

/-- A fault of a token points at that token. -/
theorem pointsInto_of_faultAt {i j : ℕ} {cs : List Char} {t : Token}
    (hcs : (Text.lines text.toList)[i]? = some cs) (ht : (lineTokens (1 + i) cs)[j]? = some t)
    (hfault : FaultAt j t fault) : fault.PointsInto text := by
  have hmem := List.mem_of_getElem? ht
  have hplace := standsOn_of_mem_lineTokens hmem
  have hnumber : t.line = 1 + i := line_of_mem_tokensFrom hmem
  have hlt : i < (Text.lines text.toList).length := (List.getElem?_eq_some_iff.1 hcs).1
  -- a line has no fifth token, so the fault is not a surplus one
  have hfour : j < 4 := Nat.lt_of_lt_of_le (List.getElem?_eq_some_iff.1 ht).1
    (length_lineTokens_le (1 + i) cs)
  obtain ⟨hedit, hindex, hprevious⟩ := hfault.isOfEdit hfour
  obtain ⟨hline, hcolumn⟩ := hfault.position_eq
  refine ⟨hedit, ⟨t.line, hline, by omega, by omega⟩, ?_, by simp [hprevious]⟩
  intro k hk
  obtain rfl : j = k := Option.some.inj (hindex.symm.trans hk)
  refine ⟨t, cs, ?_, hline, hcolumn, ?_, hplace.one_le, hplace.le_length⟩
  · rw [hnumber, tokensOn_eq hcs, ht]
  · rw [hnumber, Nat.add_sub_cancel_left, hcs]

theorem pointsInto_of_ofTokens (h : Action.ofTokens (tokens text) = .error fault) :
    fault.PointsInto text := by
  obtain ⟨before, cs, after, as, hlines, -, hline⟩ := ofTokens_eq_error_iff.1 h
  have hcs : (Text.lines text.toList)[before.length]? = some cs := by simp [hlines]
  obtain ⟨j, t, ht, hfault⟩ := exists_faultAt_of_ofTokens hline
  exact pointsInto_of_faultAt hcs ht hfault

/-! ### Faults of order and spacing -/

theorem line_mem_lines (h : LinesRead 1 (Text.lines text.toList) actions) {a : Action}
    (ha : a ∈ actions) : 1 ≤ a.line ∧ a.line ≤ (Text.lines text.toList).length := by
  obtain ⟨i, cs, t, ts, hcs, htokens, hline⟩ := h.exists_line ha
  have hlt : i < (Text.lines text.toList).length := (List.getElem?_eq_some_iff.1 hcs).1
  rw [line_of_ofLine htokens hline]
  omega

/-- No token stands on a line between those of two neighbouring actions. -/
theorem not_between {before after : List Action} {a b : Action}
    (h : LinesRead 1 (Text.lines text.toList) (before ++ a :: b :: after)) :
    a.line < b.line ∧ ∀ t ∈ tokens text, ¬ (a.line < t.line ∧ t.line < b.line) := by
  have hsorted := h.pairwise_line
  rw [List.pairwise_append, List.pairwise_cons, List.pairwise_cons] at hsorted
  obtain ⟨-, ⟨ha, hb, -⟩, hbefore⟩ := hsorted
  refine ⟨ha b List.mem_cons_self, ?_⟩
  rintro t ht ⟨hat, htb⟩
  -- the token is on the line of an action, which is one of the two, before them or after them
  obtain ⟨c, hc, hline⟩ := h.exists_action ht
  rw [List.mem_append, List.mem_cons, List.mem_cons] at hc
  rcases hc with hc | rfl | rfl | hc
  · have hlt := hbefore c hc a List.mem_cons_self
    omega
  · omega
  · omega
  · have hlt := hb c hc
    omega

/-- A fault of spacing names the lines of two neighbouring edits, or the line of one. -/
theorem pointsInto_of_checkSpacing (h : LinesRead 1 (Text.lines text.toList) actions)
    (hfault : checkSpacing actions = .error fault) : fault.PointsInto text := by
  obtain ⟨before, a, after, rfl, -, hcheck⟩ := checkSpacing_eq_error_iff.1 hfault
  have hspacing := spacingFault_of_checkAfter hcheck
  have hline := hspacing.line?_eq
  have hrange := line_mem_lines h (List.mem_append_right _ List.mem_cons_self)
  refine ⟨?_, ⟨a.line, hline, hrange⟩, ?_, ?_⟩
  · cases hspacing <;> rfl
  · intro i hi
    cases hspacing <;> cases hi
  · intro p hp
    obtain ⟨previous, hlast, rfl⟩ := hspacing.exists_previous hp
    obtain ⟨before, rfl⟩ := List.getLast?_eq_some_iff.1 hlast
    rw [List.append_assoc, List.singleton_append] at h
    exact ⟨a.line, hline, not_between h⟩

/-! ### Every fault -/

/-- Once the actions are checked, compiling them fails only if there are none. -/
theorem ofActions_eq_error_iff :
    Graph.ofActions actions = .error fault ↔ actions = [] ∧ fault = .noActions := by
  cases actions with
  | nil => simp [Graph.ofActions, eq_comm]
  | cons a rest => simp [Graph.ofActions]

theorem LinesRead.nil_iff {n : ℕ} {ls : List (List Char)} (h : LinesRead n ls actions) :
    actions = [] ↔ linesTokens n ls = [] := by
  constructor
  · rintro rfl
    rw [List.eq_nil_iff_forall_not_mem]
    intro t ht
    obtain ⟨a, ha, -⟩ := h.exists_action ht
    cases ha
  · intro hnil
    have hread := h.ofTokens_eq
    rw [hnil] at hread
    exact (Except.ok.inj hread).symm

/-- Compiling says that there are no actions exactly when the text has no tokens.  Every other fault
points into the text: it names a line that is there, and a fault of reading also the column of its
token. -/
theorem compile_faults_point_into_text (text : String) :
    (compile text = .error .noActions ↔ tokens text = []) ∧
      ∀ fault, compile text = .error fault → fault = .noActions ∨ fault.PointsInto text := by
  have hplace : ∀ fault, compile text = .error fault →
      fault = .noActions ∧ tokens text = [] ∨ fault.PointsInto text := by
    intro fault h
    rcases compile_eq_error_iff.1 h with h | ⟨actions, hread, h⟩
    · rcases readActions_eq_error_iff.1 h with h | ⟨actions, hread, h⟩
      · exact .inr (pointsInto_of_ofTokens h)
      · exact .inr (pointsInto_of_checkSpacing (linesRead_iff.2 hread) h)
    · obtain ⟨rfl, rfl⟩ := ofActions_eq_error_iff.1 h
      have hlines := linesRead_iff.2 (readActions_eq_ok_iff.1 hread).1
      exact .inl ⟨rfl, hlines.nil_iff.1 rfl⟩
  refine ⟨⟨fun h => ?_, fun h => ?_⟩, fun fault h => (hplace fault h).imp_left And.left⟩
  · rcases hplace _ h with h | h
    · exact h.2
    · exact absurd h.isOfEdit Bool.false_ne_true
  · unfold compile readActions
    rw [h]
    rfl

/-- A reason with two colons, and an edit that starts inside the one before it; the second line has no
tokens. -/
theorem compile_faults_point_into_text_two_texts :
    (compile "cut 1 - 2\r\n# pause\nmute 3 - 4 (a:b:c)" = .error (.badReason ⟨3, 13⟩ ⟨"a:b:c"⟩) ∧
      (Fault.badReason ⟨3, 13⟩ ⟨"a:b:c"⟩).PointsInto "cut 1 - 2\r\n# pause\nmute 3 - 4 (a:b:c)") ∧
    compile "cut 1 - 2\r\n# pause\nmute 1.5 - 4" = .error (.outOfOrder 1 3) ∧
      (Fault.outOfOrder 1 3).PointsInto "cut 1 - 2\r\n# pause\nmute 1.5 - 4" := by
  have hreason : compile "cut 1 - 2\r\n# pause\nmute 3 - 4 (a:b:c)" =
      .error (.badReason ⟨3, 13⟩ ⟨"a:b:c"⟩) := by decide +kernel
  have horder : compile "cut 1 - 2\r\n# pause\nmute 1.5 - 4" = .error (.outOfOrder 1 3) := by
    decide +kernel
  refine ⟨⟨hreason, ?_⟩, horder, ?_⟩
  · exact ((compile_faults_point_into_text _).2 _ hreason).resolve_left Fault.noConfusion
  · exact ((compile_faults_point_into_text _).2 _ horder).resolve_left Fault.noConfusion

end EditList
