import EditList.Proofs.FaultPlace
import EditList.Proofs.Text.Lines
import EditList.Proofs.Token.Split

/-!
# The places of the tokens of a text

The fields of a line follow one another, and a character that ends a field stands between its token and
the next one (`pairwise_splitFields`).  So the tokens of a text are in the order of their places, and no
character belongs to two of them (`Token.Precedes`).  The only token without a text is that of a reason
which is closed at once, and its place is that of the parenthesis (`exists_close_of_mem_splitFields`).

* `tokens_at_their_places`: where the tokens of a text stand, and in which order.
-/

namespace EditList

/-! ### Fields one after the other -/

section Fields

variable {line column : ℕ} {unbroken : Bool} {field : Field} {fields : List Field} {t : Token}
  {cs : List Char}

theorem Field.length_text_token_le (field : Field) (line column : ℕ) (cs : List Char) :
    (field.token line column cs).text.length ≤ (field.body cs).length := by
  rw [Field.token, String.length_ofList]
  exact Text.length_trimEnd_le _

/-- What a list of fields gives: nothing, the token of its first field, or this token and what the other
fields give behind it. -/
theorem splitFields_cons (line : ℕ) (unbroken : Bool) (field : Field) (fields : List Field)
    (column : ℕ) (cs : List Char) :
    ∃ before rest, cs = before ++ rest ∧ (∀ c ∈ rest.head?, Text.isBlank c = false) ∧
      (splitFields line unbroken (field :: fields) column cs = [] ∨
        field.body rest ≠ [] ∧ splitFields line unbroken (field :: fields) column cs =
          [field.token line (column + before.length) rest] ∨
        ∃ d behind, field.after rest = d :: behind ∧
          splitFields line unbroken (field :: fields) column cs =
            field.token line (column + before.length) rest ::
              splitFields line unbroken fields
                (column + before.length + (field.body rest).length + 1) behind) := by
  refine ⟨cs.takeWhile Text.isBlank, cs.dropWhile Text.isBlank,
    List.takeWhile_append_dropWhile.symm, Text.not_isBlank_head_dropWhile cs, ?_⟩
  rw [splitFields]
  cases hafter : field.after (cs.dropWhile Text.isBlank) with
  | cons d behind => exact .inr (.inr ⟨d, behind, rfl, rfl⟩)
  | nil =>
    cases hemit : unbroken && !(field.body (cs.dropWhile Text.isBlank)).isEmpty with
    | false => exact .inl rfl
    | true =>
      rw [Bool.and_eq_true] at hemit
      exact .inr (.inl ⟨by simpa using hemit.2, rfl⟩)

/-- Tokens stand where the splitting began or later. -/
theorem le_column_of_mem_splitFields (h : t ∈ splitFields line unbroken fields column cs) :
    column ≤ t.column := by
  induction fields generalizing column cs with
  | nil => cases h
  | cons field fields ih =>
    obtain ⟨before, rest, -, -, hnone | ⟨-, hlast⟩ | ⟨d, behind, -, hnext⟩⟩ :=
      splitFields_cons line unbroken field fields column cs
    · rw [hnone] at h
      cases h
    · rw [hlast, List.mem_singleton] at h
      rw [h]
      exact Nat.le_add_right column before.length
    · rw [hnext, List.mem_cons] at h
      rcases h with rfl | h
      · exact Nat.le_add_right column before.length
      · have hle := ih h
        omega

/-- Between two tokens of a line there is a character at least, the one that ends the first of them. -/
theorem pairwise_splitFields (line : ℕ) (unbroken : Bool) (fields : List Field) (column : ℕ)
    (cs : List Char) :
    (splitFields line unbroken fields column cs).Pairwise fun t u =>
      t.column + t.text.length < u.column := by
  induction fields generalizing column cs with
  | nil => exact .nil
  | cons field fields ih =>
    obtain ⟨before, rest, -, -, hnone | ⟨-, hlast⟩ | ⟨d, behind, -, hnext⟩⟩ :=
      splitFields_cons line unbroken field fields column cs
    · rw [hnone]
      exact .nil
    · rw [hlast]
      exact List.pairwise_singleton _ _
    · rw [hnext]
      refine .cons (fun u hu => ?_) (ih _ behind)
      -- the next field starts behind the character that ends this one
      have hle := le_column_of_mem_splitFields hu
      have hlength := field.length_text_token_le line (column + before.length) rest
      show column + before.length + _ < u.column
      omega

/-- Only the reason can be closed before it has a character. -/
theorem Field.eq_close_of_body_eq_nil {c : Char} {ds : List Char} (hblank : Text.isBlank c = false)
    (h : field.body (c :: ds) = []) : c = ')' := by
  by_contra hclose
  have hreason : field = .reason → c ≠ ')' := fun _ => hclose
  rw [(Field.split_cons hblank hreason ds).1] at h
  cases h

/-- A token without a text has an empty field, since fields do not begin with a blank. -/
theorem Field.body_eq_nil_of_text (hhead : ∀ c ∈ cs.head?, Text.isBlank c = false)
    (h : (field.token line column cs).text = "") : field.body cs = [] := by
  have hsplit := field.body_append_after cs
  cases hbody : field.body cs with
  | nil => rfl
  | cons c ds =>
    rw [hbody] at hsplit
    have hblank : Text.isBlank c = false := hhead c (by rw [← hsplit]; rfl)
    have hne := (Text.trim_cons_isPrefix hblank ds).1
    rw [Field.token, hbody, ← Text.trim_cons hblank, String.ofList_eq_empty_iff] at h
    exact absurd h hne

/-- A token without a text stands where a parenthesis closes. -/
theorem exists_close_of_mem_splitFields (h : t ∈ splitFields line unbroken fields column cs)
    (htext : t.text = "") :
    ∃ before after, cs = before ++ ')' :: after ∧ t.column = column + before.length := by
  induction fields generalizing column cs with
  | nil => cases h
  | cons field fields ih =>
    obtain ⟨before, rest, hsplit, hhead, hnone | ⟨hbody, hlast⟩ | ⟨d, behind, hafter, hnext⟩⟩ :=
      splitFields_cons line unbroken field fields column cs
    · rw [hnone] at h
      cases h
    · rw [hlast, List.mem_singleton] at h
      -- a field that ends with the line has a character
      rw [h] at htext
      exact absurd (Field.body_eq_nil_of_text hhead htext) hbody
    · have hrest := field.body_append_after rest
      rw [hafter] at hrest
      rw [hnext, List.mem_cons] at h
      rcases h with rfl | h
      · -- the field is empty, so the first character ends it, and only a reason is closed at once
        have hbody := Field.body_eq_nil_of_text hhead htext
        rw [hbody, List.nil_append] at hrest
        rw [← hrest] at hbody hhead
        obtain rfl := Field.eq_close_of_body_eq_nil (hhead d rfl) hbody
        exact ⟨before, behind, by rw [hsplit, hrest], rfl⟩
      · obtain ⟨between, after, rfl, hcolumn⟩ := ih h
        refine ⟨before ++ (field.body rest ++ d :: between), after, ?_, ?_⟩
        · calc cs = before ++ (field.body rest ++ d :: (between ++ ')' :: after)) := by
                rw [hrest, hsplit]
            _ = before ++ (field.body rest ++ d :: between) ++ ')' :: after := by simp
        · rw [hcolumn, List.length_append, List.length_append, List.length_cons]
          omega

end Fields

/-! ### The tokens of a line -/

/-- On a line every token ends before a character that stands before the next one. -/
theorem pairwise_lineTokens (line : ℕ) (cs : List Char) :
    (lineTokens line cs).Pairwise fun t u => t.column + t.text.length < u.column := by
  rw [lineTokens, tokensFrom_eq_splitFields]
  exact pairwise_splitFields ..

theorem getElem?_column_of_text_eq_empty {line : ℕ} {cs : List Char} {t : Token}
    (h : t ∈ lineTokens line cs) (htext : t.text = "") : cs[t.column - 1]? = some ')' := by
  rw [lineTokens, tokensFrom_eq_splitFields] at h
  obtain ⟨before, after, hsplit, hcolumn⟩ := exists_close_of_mem_splitFields h htext
  obtain ⟨tail, hcs⟩ : Text.uncommented cs <+: cs := List.takeWhile_prefix _
  rw [hcolumn, ← hcs, hsplit]
  simp

/-! ### The tokens of a text -/

/-- A token that is found at its place on a line. -/
structure Token.FoundOn (t : Token) (cs : List Char) : Prop where
  one_le : 1 ≤ t.column
  le_length : t.column ≤ cs.length
  /-- From its column on the line has its text. -/
  isPrefix : t.text.toList <+: cs.drop (t.column - 1)
  not_blank_first : ∀ c ∈ t.text.toList.head?, Text.isBlank c = false
  not_blank_last : ∀ c ∈ t.text.toList.getLast?, Text.isBlank c = false
  comment_not_mem : '#' ∉ t.text.toList
  newline_not_mem : '\n' ∉ t.text.toList
  /-- Where it has no text, the parenthesis of a reason closes. -/
  closes : t.text = "" → cs[t.column - 1]? = some ')'

/-- The columns of a line that the text of a token takes up. -/
def Token.extent (t : Token) : List ℕ :=
  List.range' t.column t.text.length

/-- The order of places in a text. -/
def Position.Before (p q : Position) : Prop :=
  p.line < q.line ∨ p.line = q.line ∧ p.column < q.column

/-- One token is on an earlier line than another, or on the same line and ends before a character that
stands before the other. -/
def Token.Precedes (t u : Token) : Prop :=
  t.line < u.line ∨ t.line = u.line ∧ t.column + t.text.length < u.column

namespace Token.Precedes

variable {t u : Token}

theorem position (h : t.Precedes u) : t.position.Before u.position := by
  rcases h with hline | ⟨hline, hcolumn⟩
  · exact .inl hline
  · exact .inr ⟨hline, Nat.lt_of_le_of_lt (Nat.le_add_right _ _) hcolumn⟩

/-- Tokens that follow one another on a line have no column in common. -/
theorem disjoint_extent (h : t.Precedes u) (hline : t.line = u.line) :
    List.Disjoint t.extent u.extent := by
  have hlt : t.column + t.text.length < u.column := by
    unfold Precedes at h
    omega
  intro x hx hx'
  unfold Token.extent at hx hx'
  rw [List.mem_range'_1] at hx hx'
  omega

end Token.Precedes

/-- The tokens of a text follow one another. -/
theorem pairwise_linesTokens (n : ℕ) (ls : List (List Char)) :
    (linesTokens n ls).Pairwise Token.Precedes := by
  induction ls generalizing n with
  | nil => exact .nil
  | cons cs ls ih =>
    rw [linesTokens, List.pairwise_append]
    refine ⟨?_, ih (n + 1), ?_⟩
    · refine (pairwise_lineTokens n cs).imp_of_mem fun {t u} ht hu hlt => .inr ⟨?_, hlt⟩
      have hline : t.line = n := line_of_mem_tokensFrom ht
      rw [hline, line_of_mem_tokensFrom hu]
    · intro t ht u hu
      have hline : t.line = n := line_of_mem_tokensFrom ht
      have hle := le_line_of_mem_linesTokens hu
      exact .inl (by omega)

theorem foundOn_of_mem_lineTokens {n : ℕ} {cs : List Char} {t : Token} (hcs : '\n' ∉ cs)
    (h : t ∈ lineTokens n cs) : t.FoundOn cs := by
  have hplace := standsOn_of_mem_lineTokens h
  have hsubset : ∀ c ∈ t.text.toList, c ∈ Text.uncommented cs :=
    fun c hc => (List.drop_suffix _ _).mem (hplace.isPrefix.mem hc)
  have huncommented : Text.uncommented cs <+: cs := List.takeWhile_prefix _
  refine ⟨hplace.one_le, hplace.le_length, ?_, ?_, ?_, ?_, ?_, getElem?_column_of_text_eq_empty h⟩
  · exact hplace.isPrefix.trans (huncommented.drop _)
  · rw [← hplace.trimmed]
    exact Text.not_isBlank_head_trim _
  · rw [← hplace.trimmed]
    exact Text.not_isBlank_getLast_trimEnd _
  · exact fun hmem => Text.not_mem_uncommented cs (hsubset _ hmem)
  · exact fun hmem => hcs (huncommented.mem (hsubset _ hmem))

/-- The tokens with the number `n` are those of one line, even where the text has no such line. -/
theorem exists_tokensOn_eq (text : String) (n : ℕ) : ∃ cs, tokensOn text n = lineTokens n cs := by
  by_cases hlines : 1 ≤ n ∧ n - 1 < (Text.lines text.toList).length
  · obtain ⟨hn, hlt⟩ := hlines
    have hnumber : 1 + (n - 1) = n := by omega
    have htokens : tokensOn text (1 + (n - 1)) = lineTokens (1 + (n - 1)) _ :=
      tokensOn_eq (List.getElem?_eq_getElem hlt)
    rw [hnumber] at htokens
    exact ⟨_, htokens⟩
  · have hnone : tokensOn text n = [] := by
      rw [tokensOn, List.filter_eq_nil_iff]
      intro t ht
      have hle := le_line_of_mem_linesTokens ht
      have hlt := line_lt_of_mem_linesTokens ht
      rw [decide_eq_true_iff]
      omega
    exact ⟨[], hnone⟩

/-- Every token of a text is found on its line at its column, and it has no text only if it is an
empty reason.  The tokens are in the order of their places, do not overlap, and no line has more
than four. -/
theorem tokens_at_their_places (text : String) :
    (∀ t ∈ tokens text, ∃ i cs, t.line = i + 1 ∧ (Text.lines text.toList)[i]? = some cs ∧
        t.FoundOn cs) ∧
      (∀ n i t, (tokensOn text n)[i]? = some t → t.text = "" → i = 3) ∧
      ((tokens text).map Token.position).Pairwise Position.Before ∧
      (tokens text).Pairwise (fun t u => t.line = u.line → List.Disjoint t.extent u.extent) ∧
      ∀ n, (tokensOn text n).length ≤ 4 := by
  have hpairwise : (tokens text).Pairwise Token.Precedes := pairwise_linesTokens _ _
  refine ⟨fun t ht => ?_, fun n i t ht htext => ?_, ?_, ?_, fun n => ?_⟩
  · obtain ⟨i, cs, hline, hcs, hmem⟩ := exists_line_of_mem_linesTokens ht
    have hnewline := Text.not_mem_of_mem_lines (List.mem_of_getElem? hcs)
    exact ⟨i, cs, hline.trans (Nat.add_comm 1 i), hcs, foundOn_of_mem_lineTokens hnewline hmem⟩
  · obtain ⟨cs, htokens⟩ := exists_tokensOn_eq text n
    rw [htokens] at ht
    have hlt : i < (lineTokens n cs).length := (List.getElem?_eq_some_iff.1 ht).1
    have hlength := length_lineTokens_le n cs
    have hle : ¬ i < 3 := fun hi => text_ne_empty_of_lineTokens ht hi htext
    omega
  · exact List.pairwise_map.2 (hpairwise.imp Token.Precedes.position)
  · exact hpairwise.imp Token.Precedes.disjoint_extent
  · obtain ⟨cs, htokens⟩ := exists_tokensOn_eq text n
    rw [htokens]
    exact length_lineTokens_le n cs

/-- A start that is a negative number, a stop with an accent, an empty reason before a comment, and a
line that starts with a wide blank. -/
theorem tokens_at_their_places_two_lines :
    tokens "mute -1 - é (  ) # x\r\n\u3000cut 3" =
        [⟨"mute", 1, 1⟩, ⟨"-1", 1, 6⟩, ⟨"é", 1, 11⟩, ⟨"", 1, 16⟩, ⟨"cut", 2, 2⟩, ⟨"3", 2, 6⟩] ∧
      (Token.mk "" 1 16).FoundOn "mute -1 - é (  ) # x".toList ∧
      (Token.mk "cut" 2 2).FoundOn "\u3000cut 3".toList ∧
      List.Disjoint (Token.mk "-1" 1 6).extent (Token.mk "é" 1 11).extent := by
  have htokens : tokens "mute -1 - é (  ) # x\r\n\u3000cut 3" =
      [⟨"mute", 1, 1⟩, ⟨"-1", 1, 6⟩, ⟨"é", 1, 11⟩, ⟨"", 1, 16⟩, ⟨"cut", 2, 2⟩, ⟨"3", 2, 6⟩] := by
    decide +kernel
  have hlines : Text.lines "mute -1 - é (  ) # x\r\n\u3000cut 3".toList =
      ["mute -1 - é (  ) # x".toList, "\u3000cut 3".toList] := by decide +kernel
  obtain ⟨hfound, -, -, hextents, -⟩ :=
    tokens_at_their_places "mute -1 - é (  ) # x\r\n\u3000cut 3"
  rw [htokens, hlines] at hfound
  rw [htokens] at hextents
  refine ⟨htokens, ?_, ?_, ?_⟩
  · obtain ⟨i, cs, hi, hcs, h⟩ := hfound ⟨"", 1, 16⟩ (by simp)
    obtain rfl : i = 0 := by simpa using hi
    exact Option.some.inj hcs ▸ h
  · obtain ⟨i, cs, hi, hcs, h⟩ := hfound ⟨"cut", 2, 2⟩ (by simp)
    obtain rfl : i = 1 := by simpa using hi
    exact Option.some.inj hcs ▸ h
  · have hsecond := List.Pairwise.tail hextents
    exact List.rel_of_pairwise_cons hsecond List.mem_cons_self rfl

end EditList
