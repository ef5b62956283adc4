import EditList.Proofs.Text
import EditList.Token

/-!
# Tokens of a line

What one character does is said once for all fields, through the characters that end a field
(`Field.ends`).  From there `tokensFrom` is followed over a whole field at a time: the blanks before
it (`tokensFrom_blanks`), its characters (`tokensFrom_field`) and the character that ends it.

Blanks at the end of a line change no token (`tokensFrom_append_blanks`).  So it does not matter that a
carriage return may belong to the end of a line, and the tokens of a text are those of the pieces
between its line feeds (`tokens_eq`).
-/

namespace EditList

/-! ### One character -/

namespace Field

/-- Whether a character ends a field that has begun. -/
def ends : Field → Char → Bool
  | .verb, c => Text.isBlank c
  | .start, c => c = '-'
  | .stop, c => c = '('
  | .reason, c => c = ')'

variable {field : Field} {c : Char}

theorem ne_comment_of_isBlank (h : Text.isBlank c = true) : c ≠ '#' := by
  rintro rfl
  revert h
  decide

/-- Blanks before a field are skipped. -/
theorem step_true_of_isBlank (h : Text.isBlank c = true) : field.step c true = .skip := by
  have hcomment := ne_comment_of_isBlank h
  have hclose : c ≠ ')' := by
    rintro rfl
    revert h
    decide
  cases field <;> simp [step, h, hcomment, hclose]

/-- A field begins with whatever is not a blank or a comment; a reason may also be closed at once. -/
theorem step_true (hcomment : c ≠ '#') (hblank : Text.isBlank c = false)
    (hreason : field = .reason → c ≠ ')') : field.step c true = .push := by
  cases field with
  | reason => simp [step, hcomment, hblank, hreason rfl]
  | _ => simp [step, hcomment, hblank]

/-- A field goes on until it ends or a comment begins. -/
theorem step_false (hcomment : c ≠ '#') (hends : field.ends c = false) :
    field.step c false = .push := by
  cases field <;> simp_all [step, ends]

theorem step_verb (h : Text.isBlank c = true) : Field.verb.step c false = .advance .start := by
  simp [step, h, ne_comment_of_isBlank h]

/-- Only the verb is ended by a blank. -/
theorem eq_verb_of_ends (hblank : Text.isBlank c = true) (hends : field.ends c = true) :
    field = .verb := by
  cases field with
  | verb => rfl
  | _ =>
    -- the characters that end the other fields are not blank
    rw [ends, decide_eq_true_iff] at hends
    subst hends
    revert hblank
    decide

end Field

variable {line column : Nat} {field : Field} {p : Pending} {c : Char} {bs cs : List Char}

theorem tokensFrom_push (h : field.step c p.taken.isEmpty = .push) :
    tokensFrom line field p column (c :: cs) =
      tokensFrom line field (p.push c column) (column + 1) cs := by
  rw [tokensFrom, h]

theorem tokensFrom_skip (h : field.step c p.taken.isEmpty = .skip) :
    tokensFrom line field p column (c :: cs) = tokensFrom line field p (column + 1) cs := by
  rw [tokensFrom, h]

theorem tokensFrom_advance {next : Field} (h : field.step c p.taken.isEmpty = .advance next) :
    tokensFrom line field p column (c :: cs) =
      p.token line column :: tokensFrom line next .empty (column + 1) cs := by
  rw [tokensFrom, h]

theorem tokensFrom_finish (h : field.step c p.taken.isEmpty = .finish) :
    tokensFrom line field p column (c :: cs) = [p.token line column] := by
  rw [tokensFrom, h]

theorem tokensFrom_nil (hp : p.taken.isEmpty = false) :
    tokensFrom line field p column [] = [p.token line column] := by
  rw [tokensFrom, if_neg (by simp [hp])]

/-! ### One field -/

/-- Blanks before a field only move its column. -/
theorem tokensFrom_blanks (h : Text.IsBlankRun bs) :
    tokensFrom line field .empty column (bs ++ cs) =
      tokensFrom line field .empty (column + bs.length) cs := by
  induction bs generalizing column with
  | nil => rfl
  | cons b bs ih =>
    obtain ⟨hb, hbs⟩ := Text.isBlankRun_cons.1 h
    have hstep : field.step b Pending.empty.taken.isEmpty = .skip := Field.step_true_of_isBlank hb
    rw [List.cons_append, tokensFrom_skip hstep, ih hbs, List.length_cons, Nat.add_assoc,
      Nat.add_comm 1]

/-- A run of characters that do not end a field goes into it. -/
theorem tokensFrom_run {ds : List Char} (hp : p.taken.isEmpty = false) (hcomment : '#' ∉ ds)
    (hends : ∀ d ∈ ds, field.ends d = false) :
    tokensFrom line field p column (ds ++ cs) =
      tokensFrom line field ⟨ds.reverse ++ p.taken, p.column⟩ (column + ds.length) cs := by
  induction ds generalizing p column with
  | nil => rfl
  | cons d ds ih =>
    rw [List.mem_cons, not_or] at hcomment
    rw [List.forall_mem_cons] at hends
    have hstep : field.step d p.taken.isEmpty = .push := by
      rw [hp]
      exact Field.step_false (Ne.symm hcomment.1) hends.1
    rw [List.cons_append, tokensFrom_push hstep, ih rfl hcomment.2 hends.2]
    simp [Pending.push, hp, Nat.add_assoc, Nat.add_comm 1]

/-- The first character of a field belongs to it even where it would end it later. -/
theorem tokensFrom_field {ds : List Char} (hblank : Text.isBlank c = false)
    (hreason : field = .reason → c ≠ ')') (hcomment : '#' ∉ c :: ds)
    (hends : ∀ d ∈ ds, field.ends d = false) :
    tokensFrom line field .empty column (c :: ds ++ cs) =
      tokensFrom line field ⟨(c :: ds).reverse, column⟩ (column + (c :: ds).length) cs := by
  rw [List.mem_cons, not_or] at hcomment
  have hstep : field.step c Pending.empty.taken.isEmpty = .push :=
    Field.step_true (Ne.symm hcomment.1) hblank hreason
  rw [List.cons_append, tokensFrom_push hstep, tokensFrom_run rfl hcomment.2 hends]
  simp [Pending.push, Pending.empty, Nat.add_assoc, Nat.add_comm 1]

/-- A reason may be empty; its token is then where its parenthesis closes. -/
theorem tokensFrom_reason {ds : List Char} (hcomment : '#' ∉ ds) (hclose : ')' ∉ ds) :
    tokensFrom line .reason .empty column (ds ++ ')' :: cs) =
      [⟨String.ofList (Text.trim ds), line, column + (ds.takeWhile Text.isBlank).length⟩] := by
  have hbs := Text.isBlankRun_takeWhile ds
  have hsplit := List.takeWhile_append_dropWhile (p := Text.isBlank) (l := ds)
  have hhead := List.head?_dropWhile_not Text.isBlank ds
  have hstep : ∀ empty, Field.reason.step ')' empty = .finish := fun empty => rfl
  -- the blanks in front of the reason, and the reason itself, which may be empty
  generalize ds.takeWhile Text.isBlank = bs at *
  generalize ds.dropWhile Text.isBlank = rest at *
  subst hsplit
  rw [Text.trim_append_left hbs]
  cases rest with
  | nil =>
    rw [List.append_nil, tokensFrom_blanks hbs, tokensFrom_finish (hstep _)]
    rfl
  | cons c es =>
    rw [List.mem_append, not_or] at hcomment hclose
    have hends : ∀ d ∈ es, Field.reason.ends d = false := by
      intro d hd
      have hne : d ≠ ')' := by
        rintro rfl
        exact hclose.2 (List.mem_cons_of_mem _ hd)
      simpa [Field.ends] using hne
    have hne : c ≠ ')' := by
      rintro rfl
      exact hclose.2 List.mem_cons_self
    rw [List.append_assoc, tokensFrom_blanks hbs,
      tokensFrom_field (by simpa using hhead) (fun _ => hne) hcomment.2 hends,
      tokensFrom_finish (hstep _)]
    simp [Pending.token]

/-! ### One line -/

theorem Pending.token_of_taken (hp : p.taken.isEmpty = false) (here there : Nat) :
    p.token line here = p.token line there := by
  simp [Pending.token, hp]

/-- A blank at the end of a field does not show in its token. -/
theorem Pending.token_push_of_isBlank (hc : Text.isBlank c = true)
    (hp : p.taken.isEmpty = false) (here : Nat) :
    (p.push c column).token line here = p.token line here := by
  have hrun : Text.IsBlankRun [c] := Text.isBlankRun_cons.2 ⟨hc, by simp [Text.IsBlankRun]⟩
  unfold Pending.token Pending.push
  rw [List.reverse_cons, Text.trim_append hrun]
  simp [hp]

/-- At the end of a line blanks are the same as nothing. -/
theorem tokensFrom_of_isBlankRun (h : Text.IsBlankRun bs) (column' : Nat) :
    tokensFrom line field p column bs = tokensFrom line field p column' [] := by
  induction bs generalizing field p column column' with
  | nil =>
    cases hp : p.taken.isEmpty with
    | true => simp [tokensFrom, hp]
    | false => rw [tokensFrom_nil hp, tokensFrom_nil hp, Pending.token_of_taken hp]
  | cons b bs ih =>
    obtain ⟨hb, hbs⟩ := Text.isBlankRun_cons.1 h
    cases hp : p.taken.isEmpty with
    | true =>
      have hstep : field.step b p.taken.isEmpty = .skip := by
        rw [hp]
        exact Field.step_true_of_isBlank hb
      rw [tokensFrom_skip hstep]
      exact ih hbs column'
    | false =>
      rw [tokensFrom_nil hp]
      -- a verb ends here and leaves an empty start; any other field takes the blank in
      cases hends : field.ends b with
      | true =>
        obtain rfl := Field.eq_verb_of_ends hb hends
        have hstep : Field.verb.step b p.taken.isEmpty = .advance .start := by
          rw [hp]
          exact Field.step_verb hb
        rw [tokensFrom_advance hstep, ih hbs column', Pending.token_of_taken hp column column']
        rfl
      | false =>
        have hstep : field.step b p.taken.isEmpty = .push := by
          rw [hp]
          exact Field.step_false (Field.ne_comment_of_isBlank hb) hends
        rw [tokensFrom_push hstep, ih hbs column', tokensFrom_nil rfl,
          Pending.token_push_of_isBlank hb hp]

/-- Where two ends of a line give the same tokens from everywhere, they do so after any beginning. -/
theorem tokensFrom_append_congr {as bs : List Char}
    (h : ∀ field p column, tokensFrom line field p column as = tokensFrom line field p column bs) :
    tokensFrom line field p column (cs ++ as) = tokensFrom line field p column (cs ++ bs) := by
  induction cs generalizing field p column with
  | nil => exact h field p column
  | cons c cs ih =>
    rw [List.cons_append, List.cons_append, tokensFrom, tokensFrom]
    cases field.step c p.taken.isEmpty with
    | push => exact ih
    | skip => exact ih
    | advance next => exact congrArg _ ih
    | finish => rfl
    | abandon => rfl

/-- Blanks at the end of a line make no token and change none. -/
theorem tokensFrom_append_blanks (h : Text.IsBlankRun bs) :
    tokensFrom line field p column (cs ++ bs) = tokensFrom line field p column cs := by
  have hnil : tokensFrom line field p column (cs ++ bs) =
      tokensFrom line field p column (cs ++ []) := by
    apply tokensFrom_append_congr
    intro field p column
    exact tokensFrom_of_isBlankRun h column
  rwa [List.append_nil] at hnil

/-- A comment drops the field that has begun. -/
theorem tokensFrom_comment (ds : List Char) : tokensFrom line field p column ('#' :: ds) = [] := by
  rw [tokensFrom]
  rfl

/-- What a comment says does not matter. -/
theorem tokensFrom_append_comment (ds es : List Char) :
    tokensFrom line field p column (cs ++ '#' :: ds) =
      tokensFrom line field p column (cs ++ '#' :: es) := by
  apply tokensFrom_append_congr
  intro field p column
  rw [tokensFrom_comment, tokensFrom_comment]

theorem line_of_mem_tokensFrom {t : Token} (h : t ∈ tokensFrom line field p column cs) :
    t.line = line := by
  induction cs generalizing field p column with
  | nil =>
    rw [tokensFrom] at h
    split at h
    · cases h
    · rw [List.mem_singleton.1 h]
      rfl
  | cons c cs ih =>
    rw [tokensFrom] at h
    cases hstep : field.step c p.taken.isEmpty with
    | push => exact ih (by simpa [hstep] using h)
    | skip => exact ih (by simpa [hstep] using h)
    | advance next =>
      simp only [hstep, List.mem_cons] at h
      rcases h with rfl | h
      · rfl
      · exact ih h
    | finish =>
      simp only [hstep, List.mem_singleton] at h
      rw [h]
      rfl
    | abandon => simp [hstep] at h

/-! ### All lines -/

/-- A carriage return at the end is a blank. -/
theorem lineTokens_dropReturn (line : Nat) (cs : List Char) :
    lineTokens line (Text.dropReturn cs) = lineTokens line cs := by
  unfold Text.dropReturn
  split
  · next h =>
    obtain ⟨ds, rfl⟩ := List.getLast?_eq_some_iff.1 h
    rw [List.dropLast_concat]
    exact (tokensFrom_append_blanks Text.isBlankRun_return).symm
  · rfl

theorem linesTokens_endedLines (line : Nat) (pieces : List (List Char)) :
    linesTokens line (Text.endedLines pieces) = linesTokens line pieces := by
  fun_induction Text.endedLines pieces generalizing line with
  | case1 => rfl
  | case2 last h =>
    rw [List.isEmpty_iff.1 h]
    rfl
  | case3 last h => rfl
  | case4 cs rest _ ih => rw [linesTokens, linesTokens, lineTokens_dropReturn, ih]

/-- The tokens of a text are those of the pieces between its newlines: an empty last piece has none. -/
theorem tokens_eq (text : String) : tokens text = linesTokens 1 (text.toList.splitOn '\n') :=
  linesTokens_endedLines 1 _

theorem le_line_of_mem_linesTokens {pieces : List (List Char)} {t : Token}
    (h : t ∈ linesTokens line pieces) : line ≤ t.line := by
  induction pieces generalizing line with
  | nil => cases h
  | cons cs rest ih =>
    rw [linesTokens, List.mem_append] at h
    rcases h with h | h
    · exact Nat.le_of_eq (line_of_mem_tokensFrom h).symm
    · have hle := ih h
      omega

theorem line_lt_of_mem_linesTokens {pieces : List (List Char)} {t : Token}
    (h : t ∈ linesTokens line pieces) : t.line < line + pieces.length := by
  induction pieces generalizing line with
  | nil => cases h
  | cons cs rest ih =>
    rw [linesTokens, List.mem_append] at h
    rw [List.length_cons]
    rcases h with h | h
    · have heq : t.line = line := line_of_mem_tokensFrom h
      omega
    · have hlt := ih h
      omega

/-- The tokens with the number of a line are the tokens of that line. -/
theorem filter_linesTokens {pieces : List (List Char)} {i : Nat} (h : pieces[i]? = some cs) :
    (linesTokens line pieces).filter (fun t => t.line = line + i) = lineTokens (line + i) cs := by
  induction pieces generalizing line i with
  | nil => simp at h
  | cons ds rest ih =>
    rw [linesTokens, List.filter_append]
    cases i with
    | zero =>
      obtain rfl : ds = cs := by simpa using h
      rw [List.filter_eq_self.2, List.filter_eq_nil_iff.2, List.append_nil, Nat.add_zero]
      · intro t ht
        have hle := le_line_of_mem_linesTokens ht
        rw [decide_eq_true_iff]
        omega
      · intro t ht
        rw [decide_eq_true_iff]
        exact line_of_mem_tokensFrom ht
    | succ i =>
      rw [List.getElem?_cons_succ] at h
      rw [List.filter_eq_nil_iff.2, List.nil_append, Nat.add_comm i, ← Nat.add_assoc, ih h]
      intro t ht
      have heq : t.line = line := line_of_mem_tokensFrom ht
      rw [decide_eq_true_iff]
      omega

/-- Every token comes from one of the lines. -/
theorem exists_line_of_mem_linesTokens {n : Nat} {ls : List (List Char)} {t : Token}
    (h : t ∈ linesTokens n ls) :
    ∃ i cs, t.line = n + i ∧ ls[i]? = some cs ∧ t ∈ lineTokens (n + i) cs := by
  have hle := le_line_of_mem_linesTokens h
  have hlt := line_lt_of_mem_linesTokens h
  obtain ⟨i, hi⟩ := Nat.exists_eq_add_of_le hle
  have hlength : i < ls.length := by omega
  have hcs : ls[i]? = some ls[i] := List.getElem?_eq_getElem hlength
  refine ⟨i, ls[i], hi, hcs, ?_⟩
  rw [← filter_linesTokens hcs, List.mem_filter]
  exact ⟨h, by simpa using hi⟩

theorem linesTokens_append (line : Nat) (as bs : List (List Char)) :
    linesTokens line (as ++ bs) = linesTokens line as ++ linesTokens (line + as.length) bs := by
  induction as generalizing line with
  | nil => rfl
  | cons cs as ih =>
    rw [List.cons_append, linesTokens, linesTokens, ih, List.append_assoc, List.length_cons,
      Nat.add_assoc, Nat.add_comm 1]

/-- After a line feed the tokens go on with those of what follows, on the next line. -/
theorem tokens_append_newline (a b : String) :
    tokens (a ++ "\n" ++ b) =
      linesTokens 1 (a.toList.splitOn '\n') ++
        linesTokens (1 + (a.toList.splitOn '\n').length) (Text.lines b.toList) := by
  have hsplit : (a ++ "\n" ++ b).toList = a.toList ++ '\n' :: b.toList := by simp
  rw [tokens_eq, hsplit, List.splitOn_append_cons_self, linesTokens_append]
  -- the lines of `b` and its pieces between line feeds have the same tokens
  exact congrArg _ (linesTokens_endedLines _ _).symm

/-- Tokens of earlier lines and of later ones have different numbers. -/
theorem line_ne_of_mem_linesTokens {as bs : List (List Char)} :
    ∀ t ∈ linesTokens line as, ∀ u ∈ linesTokens (line + as.length) bs, t.line ≠ u.line := by
  intro t ht u hu
  have hlt := line_lt_of_mem_linesTokens ht
  have hle := le_line_of_mem_linesTokens hu
  omega

end EditList
