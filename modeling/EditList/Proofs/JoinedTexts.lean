import EditList.Proofs.Renumber

/-!
# Texts joined by a line feed

Nothing is read across a line feed.  The tokens of two texts with a line feed between them are those of
the first and then those of the second, on lines that are numbered on from the first (`tokens_joined`).
So no run of tokens reaches from the one into the other, and their actions are read apart too: a fault of
the first text comes first, then one of the second, with the number that its line has in the whole.

* `reading_goes_by_lines`: the statement for any two texts.
-/

namespace EditList

/-- The number that a line of a second text has behind the text `a` and a line feed. -/
def numberAfter (a : String) (line : ℕ) : ℕ :=
  line + (1 + a.toList.count '\n')

theorem numberAfter_injective (a : String) : Function.Injective (numberAfter a) := by
  intro m n h
  exact Nat.add_right_cancel h

/-- The second text has the tokens that it has alone, on lines further down. -/
theorem tokens_joined (a b : String) :
    tokens (a ++ "\n" ++ b) = tokens a ++ (tokens b).map (Token.renumber (numberAfter a)) := by
  have hlength : (a.toList.splitOn '\n').length = 1 + a.toList.count '\n' := by
    rw [Text.length_splitOn, Nat.add_comm]
  calc tokens (a ++ "\n" ++ b)
      = linesTokens 1 (a.toList.splitOn '\n') ++
          linesTokens (1 + (1 + a.toList.count '\n')) (Text.lines b.toList) := by
        rw [tokens_append_newline, hlength]
    _ = tokens a ++ (tokens b).map (Token.renumber (numberAfter a)) := by
        rw [← tokens_eq, linesTokens_add, ← tokens]
        rfl

/-- No token of the first text is on a line of the second. -/
theorem line_ne_of_mem_tokens (a b : String) :
    ∀ t ∈ tokens a, ∀ u ∈ (tokens b).map (Token.renumber (numberAfter a)), t.line ≠ u.line := by
  intro t ht u hu
  obtain ⟨v, hv, rfl⟩ := List.mem_map.1 hu
  have hlt : t.line < 1 + (a.toList.splitOn '\n').length := by
    rw [tokens_eq] at ht
    exact line_lt_of_mem_linesTokens ht
  have hle : 1 ≤ v.line := le_line_of_mem_linesTokens hv
  have hlength := Text.length_splitOn '\n' a.toList
  show t.line ≠ v.line + (1 + a.toList.count '\n')
  omega

/-- Reading two texts that are joined by a line break is reading one after the other: the tokens and
actions of the second text, or its fault, are those that it has alone with the numbers of its lines
moved down.  A fault of the first text comes first. -/
theorem reading_goes_by_lines (a b : String) :
    tokens (a ++ "\n" ++ b) = tokens a ++ (tokens b).map (Token.renumber (numberAfter a)) ∧
      Action.ofTokens (tokens (a ++ "\n" ++ b)) = (do
        let as ← Action.ofTokens (tokens a)
        let bs ← (Action.ofTokens (tokens b)).mapError (Fault.renumber (numberAfter a))
        return as ++ bs.map (Action.renumber (numberAfter a))) := by
  have htokens := tokens_joined a b
  refine ⟨htokens, ?_⟩
  -- the two texts share no line, so their tokens are read apart
  rw [htokens, Action.ofTokens_append (line_ne_of_mem_tokens a b)]
  cases Action.ofTokens (tokens a) with
  | error fault => rfl
  | ok as =>
    rw [Action.ofTokens_map_renumber (numberAfter_injective a)]
    cases Action.ofTokens (tokens b) <;> rfl

end EditList
