import EditList.Proofs.Renumber
import EditList.Proofs.Script

/-!
# The layout of a text

What a text compiles to depends on its tokens only (`compileText_of_tokens`), and on the numbers of
their lines only as far as a fault names them (`compileText_of_renumber`).  So changes of a text that
leave its tokens alone leave the result alone:

* a line without an edit may be put in anywhere (`InsertsLine`); the lines after it are then one further
  down, in the faults too;
* lines may end in carriage returns (`withReturns`) or in blanks (`PadsEnd`);
* a comment may say anything (`Recomments`).

`layout_keeps_edit` is the statement for every text.
-/

namespace EditList

/-! ### What the result depends on -/

variable {text other : String}

/-- The result depends on the tokens only. -/
theorem compileText_of_tokens (h : tokens other = tokens text) : compileText other = compileText text := by
  unfold compileText compile readActions
  rw [h]

section Renumber

variable {f : ℕ → ℕ}

/-- Reading does not look at the numbers of lines, except to name them and to tell lines apart. -/
theorem readActions_of_renumber (hf : Function.Injective f)
    (h : tokens other = (tokens text).map (Token.renumber f)) :
    readActions other =
      ((readActions text).map (List.map (Action.renumber f))).mapError (Fault.renumber f) := by
  unfold readActions
  rw [h, Action.ofTokens_map_renumber hf]
  cases Action.ofTokens (tokens text) with
  | error fault => rfl
  | ok actions =>
    show (checkSpacing (actions.map (Action.renumber f)) >>= fun _ => _) =
      ((checkSpacing actions >>= fun _ => _).map _).mapError _
    rw [checkSpacing_renumber]
    cases checkSpacing actions <;> rfl

/-- A compiled graph does not show the numbers of lines. -/
theorem compile_of_renumber (hf : Function.Injective f)
    (h : tokens other = (tokens text).map (Token.renumber f)) :
    compile other = (compile text).mapError (Fault.renumber f) := by
  unfold compile
  rw [readActions_of_renumber hf h]
  cases readActions text with
  | error fault => rfl
  | ok actions =>
    show Graph.ofActions (actions.map (Action.renumber f)) = (Graph.ofActions actions).mapError _
    rw [ofActions_renumber]
    cases actions with
    | nil => rfl
    | cons first rest =>
      rw [ofActions_cons]
      rfl

theorem compileText_of_renumber (hf : Function.Injective f)
    (h : tokens other = (tokens text).map (Token.renumber f)) :
    compileText other = (compileText text).mapError (Fault.renumber f) := by
  unfold compileText
  rw [compile_of_renumber hf h, mapError_bind]
  rfl

end Renumber

/-! ### Putting in a line -/

namespace Text

/-- A line without an edit: blanks, and after them perhaps a comment. -/
def IsIdleLine (line : List Char) : Prop :=
  '\n' ∉ line ∧ ∃ bs comment, line = bs ++ comment ∧ IsBlankRun bs ∧
    (comment = [] ∨ ∃ words, comment = '#' :: words)

/-- The second text is the first one with a line without an edit put in, which has the number `n`.  The
line goes before the first one, between two lines or after the last line feed, and at the end of the
text it may do without a line feed of its own. -/
inductive InsertsLine : List Char → ℕ → List Char → Prop
  | ended {before line : List Char} (hbefore : EndsLine before) (hline : IsIdleLine line)
    (after : List Char) :
    InsertsLine (before ++ after) (before.count '\n' + 1) (before ++ (line ++ '\n' :: after))
  | last {before line : List Char} (hbefore : EndsLine before) (hline : IsIdleLine line) :
    InsertsLine before (before.count '\n' + 1) (before ++ line)

end Text

/-- The number of a line after another line was put in at the number `n`. -/
def shiftFrom (n line : ℕ) : ℕ :=
  if line < n then line else line + 1

theorem shiftFrom_injective (n : ℕ) : Function.Injective (shiftFrom n) := by
  intro a b h
  unfold shiftFrom at h
  split_ifs at h <;> omega

theorem map_renumber_shiftFrom_of_lt {n : ℕ} {ts : List Token} (h : ∀ t ∈ ts, t.line < n) :
    ts.map (Token.renumber (shiftFrom n)) = ts := by
  have hsame : ∀ t ∈ ts, t.renumber (shiftFrom n) = t := by
    intro t ht
    rw [Token.renumber, shiftFrom, if_pos (h t ht)]
  rw [List.map_congr_left hsame, List.map_id']

theorem map_renumber_shiftFrom_of_le {n : ℕ} {ts : List Token} (h : ∀ t ∈ ts, n ≤ t.line) :
    ts.map (Token.renumber (shiftFrom n)) = ts.map (Token.renumber (· + 1)) := by
  apply List.map_congr_left
  intro t ht
  rw [Token.renumber, shiftFrom, if_neg (Nat.not_lt.2 (h t ht)), Token.renumber]

/-- A line without an edit has no tokens. -/
theorem lineTokens_of_isIdleLine {line : List Char} (h : Text.IsIdleLine line) (n : ℕ) :
    lineTokens n line = [] := by
  obtain ⟨-, bs, comment, rfl, hbs, rfl | ⟨words, rfl⟩⟩ := h
  · rw [lineTokens, tokensFrom_blanks hbs]
    rfl
  · rw [lineTokens, tokensFrom_blanks hbs, tokensFrom_comment]

/-- A new line without an edit moves the lines after it one down and changes nothing else. -/
theorem linesTokens_insertsLine {cs longer : List Char} {n : ℕ}
    (h : Text.InsertsLine cs n longer) :
    linesTokens 1 (Text.lines longer) =
      (linesTokens 1 (Text.lines cs)).map (Token.renumber (shiftFrom n)) := by
  cases h with
  | @ended before line hbefore hline after =>
    -- the tokens before the new line have smaller numbers and stay, those after it move
    have hnumber : before.count '\n' + 1 = 1 + (Text.lines before).length := by
      rw [Text.length_lines hbefore, Nat.add_comm]
    rw [hnumber, Text.lines_append hbefore, Text.lines_append hbefore,
      Text.lines_append_newline hline.1, linesTokens_append, linesTokens_append, List.map_append,
      map_renumber_shiftFrom_of_lt fun t => line_lt_of_mem_linesTokens,
      map_renumber_shiftFrom_of_le fun t => le_line_of_mem_linesTokens, linesTokens,
      lineTokens_dropReturn, lineTokens_of_isIdleLine hline, List.nil_append, linesTokens_add]
  | @last _ line hbefore hline =>
    have hnumber : cs.count '\n' + 1 = 1 + (Text.lines cs).length := by
      rw [Text.length_lines hbefore, Nat.add_comm]
    have hnone : linesTokens (1 + (Text.lines cs).length) (Text.lines line) = [] := by
      rw [Text.lines_of_not_mem hline.1]
      split
      · rfl
      · rw [linesTokens, lineTokens_of_isIdleLine hline]
        rfl
    rw [hnumber, Text.lines_append hbefore, linesTokens_append, hnone, List.append_nil,
      map_renumber_shiftFrom_of_lt fun t => line_lt_of_mem_linesTokens]

/-! ### The ends of lines -/

/-- The text with a carriage return put before every line feed. -/
def Text.withReturns (cs : List Char) : List Char :=
  cs.flatMap fun c => if c = '\n' then ['\r', '\n'] else [c]

@[inherit_doc Text.withReturns]
def withReturns (text : String) : String :=
  String.ofList (Text.withReturns text.toList)

/-- The second line is the first one with blanks at its end; a carriage return that belongs to the end
of the line may stay behind them. -/
def PadsEnd (line padded : List Char) : Prop :=
  ∃ bs, Text.IsBlankRun bs ∧
    (padded = line ++ bs ∨ ∃ start, line = start ++ ['\r'] ∧ padded = start ++ bs ++ ['\r'])

/-- The second line is the first one, or has another text after its first number sign. -/
def Recomments (line other : List Char) : Prop :=
  other = line ∨ ∃ start words words', '#' ∉ start ∧ line = start ++ '#' :: words ∧
    other = start ++ '#' :: words'

/-- Blanks at the end of a line are ignored. -/
theorem lineTokens_padsEnd {line padded : List Char} (h : PadsEnd line padded) (n : ℕ) :
    lineTokens n padded = lineTokens n line := by
  obtain ⟨bs, hbs, rfl | ⟨start, rfl, rfl⟩⟩ := h
  · exact tokensFrom_append_blanks hbs
  · have hend : Text.IsBlankRun (bs ++ ['\r']) :=
      Text.isBlankRun_append.2 ⟨hbs, Text.isBlankRun_return⟩
    calc lineTokens n (start ++ bs ++ ['\r']) = lineTokens n (start ++ (bs ++ ['\r'])) := by
          rw [List.append_assoc]
      _ = lineTokens n start := tokensFrom_append_blanks hend
      _ = lineTokens n (start ++ ['\r']) := (tokensFrom_append_blanks Text.isBlankRun_return).symm

/-- What a comment says is ignored. -/
theorem lineTokens_recomments {line other : List Char} (h : Recomments line other) (n : ℕ) :
    lineTokens n other = lineTokens n line := by
  obtain rfl | ⟨start, words, words', -, rfl, rfl⟩ := h
  · rfl
  · exact tokensFrom_append_comment words' words

/-- Texts whose lines have the same tokens, one by one. -/
theorem tokens_of_forall₂ {r : List Char → List Char → Prop}
    (hr : ∀ {p q}, r p q → ∀ n, lineTokens n q = lineTokens n p)
    (h : List.Forall₂ r (text.toList.splitOn '\n') (other.toList.splitOn '\n')) :
    tokens other = tokens text := by
  rw [tokens_eq, tokens_eq]
  generalize text.toList.splitOn '\n' = ps at h ⊢
  generalize other.toList.splitOn '\n' = qs at h ⊢
  generalize 1 = n
  induction h generalizing n with
  | nil => rfl
  | cons hline _ ih => rw [linesTokens, linesTokens, hr hline, ih]

theorem Text.withReturns_of_not_mem {p : List Char} (hp : '\n' ∉ p) : withReturns p = p := by
  have hsame : ∀ c ∈ p, (if c = '\n' then ['\r', '\n'] else [c]) = [c] := by
    intro c hc
    apply if_neg
    rintro rfl
    exact hp hc
  rw [withReturns, List.flatMap_congr hsame, List.flatMap_singleton']

/-- Carriage returns at the ends of lines are ignored. -/
theorem linesTokens_withReturns (n : ℕ) (cs : List Char) :
    linesTokens n (Text.lines (Text.withReturns cs)) = linesTokens n (Text.lines cs) := by
  induction cs using Text.line_induction generalizing n with
  | last p hp => rw [Text.withReturns_of_not_mem hp]
  | line p rest hp ih =>
    have hp' : '\n' ∉ p ++ ['\r'] := by simp [hp]
    have hsplit : Text.withReturns (p ++ '\n' :: rest) =
        p ++ ['\r'] ++ '\n' :: Text.withReturns rest := by
      rw [Text.withReturns, List.flatMap_append, ← Text.withReturns,
        Text.withReturns_of_not_mem hp, List.append_assoc]
      rfl
    have hreturn : lineTokens n (p ++ ['\r']) = lineTokens n p :=
      tokensFrom_append_blanks Text.isBlankRun_return
    rw [hsplit, Text.lines_append_newline hp', Text.lines_append_newline hp, linesTokens,
      linesTokens, lineTokens_dropReturn, lineTokens_dropReturn, hreturn, ih]

/-- The layout of a text does not change what it compiles to.  A line without an edit may be put in
anywhere, which moves the numbers in a fault and nothing else; lines may end in carriage returns or
blanks; and comments may say anything. -/
theorem layout_keeps_edit (text : String) :
    (∀ n longer, Text.InsertsLine text.toList n longer.toList →
      compileText longer = (compileText text).mapError (Fault.renumber (shiftFrom n))) ∧
    compileText (withReturns text) = compileText text ∧
    (∀ padded, List.Forall₂ PadsEnd (text.toList.splitOn '\n') (padded.toList.splitOn '\n') →
      compileText padded = compileText text) ∧
    ∀ other, List.Forall₂ Recomments (text.toList.splitOn '\n') (other.toList.splitOn '\n') →
      compileText other = compileText text := by
  refine ⟨fun n longer h => ?_, ?_, fun padded h => ?_, fun other h => ?_⟩
  · exact compileText_of_renumber (shiftFrom_injective n) (linesTokens_insertsLine h)
  · apply compileText_of_tokens
    rw [tokens, withReturns, String.toList_ofList, linesTokens_withReturns, tokens]
  · exact compileText_of_tokens (tokens_of_forall₂ lineTokens_padsEnd h)
  · exact compileText_of_tokens (tokens_of_forall₂ lineTokens_recomments h)

/-- Two edits in the wrong order: with a line between them, with carriage returns, with blanks at the
ends of the lines, and without the words of the comment. -/
theorem layout_keeps_edit_of_two_lines :
    compileText "cut 1 - 2 (a) # x\nmute 1.5 - 3" = .error (.outOfOrder 1 2) ∧
    compileText "cut 1 - 2 (a) # x\n \t# pause\nmute 1.5 - 3" = .error (.outOfOrder 1 3) ∧
    compileText "cut 1 - 2 (a) # x\r\nmute 1.5 - 3" = .error (.outOfOrder 1 2) ∧
    compileText "cut 1 - 2 (a) # x \nmute 1.5 - 3\t\r" = .error (.outOfOrder 1 2) ∧
    compileText "cut 1 - 2 (a) #\nmute 1.5 - 3" = .error (.outOfOrder 1 2) := by
  have hfault : compileText "cut 1 - 2 (a) # x\nmute 1.5 - 3" = .error (.outOfOrder 1 2) := by
    decide +kernel
  have hpieces : "cut 1 - 2 (a) # x\nmute 1.5 - 3".toList.splitOn '\n' =
      ["cut 1 - 2 (a) # x".toList, "mute 1.5 - 3".toList] := by decide +kernel
  obtain ⟨hinsert, hreturns, hpad, hcomment⟩ :=
    layout_keeps_edit "cut 1 - 2 (a) # x\nmute 1.5 - 3"
  have hends : Text.EndsLine "cut 1 - 2 (a) # x\n".toList := by
    intro c hc
    simpa using hc.symm
  have hidle : Text.IsIdleLine " \t# pause".toList :=
    ⟨by decide, " \t".toList, "# pause".toList, rfl, by decide, .inr ⟨" pause".toList, rfl⟩⟩
  rw [hfault] at hinsert hreturns hpad hcomment
  refine ⟨hfault, ?_, hreturns, ?_, ?_⟩
  · exact hinsert 2 _ (.ended hends hidle "mute 1.5 - 3".toList)
  · apply hpad
    rw [hpieces]
    exact .cons ⟨" ".toList, by decide, .inl rfl⟩ (.cons ⟨"\t\r".toList, by decide, .inl rfl⟩ .nil)
  · apply hcomment
    rw [hpieces]
    exact .cons (.inr ⟨"cut 1 - 2 (a) ".toList, " x".toList, [], by decide, rfl, rfl⟩)
      (.cons (.inl rfl) .nil)

end EditList
