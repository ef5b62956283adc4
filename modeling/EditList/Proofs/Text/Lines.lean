import EditList.Text
import Mathlib.Data.List.Basic
import Mathlib.Tactic.Common

/-!
# The lines of a text

A text is a last line without a line feed, or a line, its line feed and another text
(`line_induction`).  Along this the lines of a text are found one by one (`lines_append_newline`,
`lines_of_not_mem`), and no line holds a line feed (`not_mem_of_mem_lines`).  After a text that ends a
line the lines go on with those of what follows (`lines_append`).

Deleting lines from a text (`keepLines`) takes every character of them away, the line feed included, so
what is left has exactly the other lines (`lines_keepLines`).
-/

namespace EditList.Text

/-- Induction on the lines of a text: the last line has no newline at its end, and every other one
has. -/
@[elab_as_elim]
theorem line_induction {motive : List Char → Prop} (last : ∀ p, '\n' ∉ p → motive p)
    (line : ∀ p rest, '\n' ∉ p → motive rest → motive (p ++ '\n' :: rest)) (cs : List Char) :
    motive cs := by
  by_cases hmem : '\n' ∈ cs
  · obtain ⟨p, rest, hsplit, hp⟩ := List.eq_append_cons_of_mem hmem
    have hshorter : rest.length < cs.length := by
      rw [hsplit, List.length_append, List.length_cons]
      omega
    rw [hsplit]
    exact line p rest hp (line_induction last line rest)
  · exact last cs hmem
termination_by cs.length

/-- A last line that is empty does not count. -/
theorem lines_of_not_mem {p : List Char} (hp : '\n' ∉ p) :
    lines p = if p.isEmpty then [] else [p] := by
  rw [lines, List.splitOn_eq_singleton hp, endedLines]

/-- The first line ends at the first newline, without a carriage return before it. -/
theorem lines_append_newline {p : List Char} (hp : '\n' ∉ p) (rest : List Char) :
    lines (p ++ '\n' :: rest) = dropReturn p :: lines rest := by
  unfold lines
  rw [List.splitOn_append_cons_self_of_not_mem hp]
  obtain ⟨q, qs, hpieces⟩ := List.exists_cons_of_ne_nil (List.splitOn_ne_nil '\n' rest)
  rw [hpieces]
  rfl

theorem not_mem_of_mem_lines {cs l : List Char} (h : l ∈ lines cs) : '\n' ∉ l := by
  induction cs using line_induction with
  | last p hp =>
    rw [lines_of_not_mem hp] at h
    split at h
    · cases h
    · rwa [List.mem_singleton.1 h]
  | line p rest hp ih =>
    rw [lines_append_newline hp, List.mem_cons] at h
    rcases h with rfl | h
    · unfold dropReturn
      split
      · exact fun hmem => hp (List.dropLast_subset p hmem)
      · exact hp
    · exact ih h

/-! ### Texts that end a line -/

/-- A text that is empty or ends in a line feed, so that what follows it starts a line. -/
def EndsLine (cs : List Char) : Prop :=
  ∀ c ∈ cs.getLast?, c = '\n'

theorem EndsLine.of_line {p rest : List Char} (h : EndsLine (p ++ '\n' :: rest)) : EndsLine rest := by
  intro c hc
  apply h
  rw [List.getLast?_append, List.getLast?_cons, Option.mem_def.1 hc]
  rfl

theorem EndsLine.eq_nil {p : List Char} (h : EndsLine p) (hp : '\n' ∉ p) : p = [] := by
  cases hlast : p.getLast? with
  | none => exact List.getLast?_eq_none_iff.1 hlast
  | some c =>
    have hmem := List.mem_of_getLast? hlast
    rw [h c hlast] at hmem
    exact absurd hmem hp

/-- Texts whose first part ends a line have the lines of both. -/
theorem lines_append {before : List Char} (h : EndsLine before) (after : List Char) :
    lines (before ++ after) = lines before ++ lines after := by
  induction before using line_induction with
  | last p hp =>
    rw [h.eq_nil hp]
    rfl
  | line p rest hp ih =>
    rw [List.append_assoc, List.cons_append, lines_append_newline hp, lines_append_newline hp,
      ih h.of_line, List.cons_append]

/-- Where every line is ended, there are as many lines as newlines. -/
theorem length_lines {cs : List Char} (h : EndsLine cs) : (lines cs).length = cs.count '\n' := by
  induction cs using line_induction with
  | last p hp =>
    rw [h.eq_nil hp]
    rfl
  | line p rest hp ih =>
    rw [lines_append_newline hp, List.length_cons, ih h.of_line, List.count_append,
      List.count_eq_zero.2 hp, List.count_cons_self, Nat.zero_add]

/-! ### Deleting lines -/

/-- The characters on the lines that are kept, when the first line has the number `n`.  A line feed
stands on the line that it ends. -/
def keepLines (keep : ℕ → Bool) (n : ℕ) : List Char → List Char
  | [] => []
  | c :: cs =>
    let rest := keepLines keep (if c = '\n' then n + 1 else n) cs
    if keep n then c :: rest else rest

/-- The lines that are kept, when the first one has the number `n`. -/
def keptLines (keep : ℕ → Bool) (n : ℕ) : List (List Char) → List (List Char)
  | [] => []
  | l :: ls => if keep n then l :: keptLines keep (n + 1) ls else keptLines keep (n + 1) ls

variable {keep : ℕ → Bool} {n : ℕ}

theorem keepLines_append {p : List Char} (hp : '\n' ∉ p) (cs : List Char) :
    keepLines keep n (p ++ cs) = if keep n then p ++ keepLines keep n cs else keepLines keep n cs := by
  induction p with
  | nil => simp
  | cons c p ih =>
    rw [List.mem_cons, not_or] at hp
    rw [List.cons_append, keepLines, if_neg (Ne.symm hp.1), ih hp.2]
    split <;> rfl

theorem keepLines_append_newline {p : List Char} (hp : '\n' ∉ p) (rest : List Char) :
    keepLines keep n (p ++ '\n' :: rest) =
      if keep n then p ++ '\n' :: keepLines keep (n + 1) rest else keepLines keep (n + 1) rest := by
  rw [keepLines_append hp, keepLines, if_pos rfl]
  split <;> rfl

/-- Deleting lines from a text deletes them from its lines and leaves the others as they are. -/
theorem lines_keepLines (cs : List Char) :
    lines (keepLines keep n cs) = keptLines keep n (lines cs) := by
  induction cs using line_induction generalizing n with
  | last p hp =>
    have hkept : keepLines keep n p = if keep n then p else [] := by
      simpa [keepLines] using keepLines_append hp []
    rw [hkept, lines_of_not_mem hp]
    cases hkeep : keep n <;> cases p <;> simp [keptLines, hkeep, lines_of_not_mem, hp]
  | line p rest hp ih =>
    rw [keepLines_append_newline hp, lines_append_newline hp, keptLines]
    cases hkeep : keep n with
    | true => rw [if_pos rfl, if_pos rfl, lines_append_newline hp, ih]
    | false => rw [if_neg Bool.false_ne_true, if_neg Bool.false_ne_true, ih]

end EditList.Text
