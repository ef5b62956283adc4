import EditList.Proofs.Action
import EditList.Proofs.Reason
import EditList.Proofs.Token

/-!
# Lines that follow the form

A `WrittenLine` is a line of the form `verb start - stop` or `verb start - stop (reason) rest`, cut
into its parts: blanks stand where they may, the verb is in any mixture of cases, and no part holds a
character that would end it early.  However such lines are laid out, one action is read from each of
them, in their order, with what its parts say (`written_lines_are_read`).
-/

namespace EditList

/-- Blanks inside a line. -/
structure Blanks where
  chars : List Char
  blank : Text.IsBlankRun chars
  inLine : '\n' ∉ chars

/-- The text of a time on a line, which would be cut short by a later `ender`. -/
structure TimeText (ender : Char) where
  chars : List Char
  head : chars.head?.map Text.isBlank = some false
  last : chars.getLast?.map Text.isBlank = some false
  inLine : '\n' ∉ chars
  uncommented : '#' ∉ chars
  unended : ender ∉ chars.tail
  readable : ∃ t, Time.parse (String.ofList chars) = .ok t

/-- The text of a reason, without its parentheses, and whatever stands after it on the line. -/
structure ReasonText where
  before : Blanks
  chars : List Char
  after : Blanks
  rest : List Char
  inLine : '\n' ∉ chars
  uncommented : '#' ∉ chars
  unended : ')' ∉ chars
  colons : chars.count ':' ≤ 1
  rest_inLine : '\n' ∉ rest

/-- The parts of a line, in the order in which they stand there. -/
structure WrittenLine where
  indent : Blanks
  verb : Verb
  word : List Char
  spelled : List.Forall₂ (fun c letter => c = letter ∨ c = letter.toUpper) word verb.name.toList
  afterVerb : Blanks
  afterVerb_ne_nil : afterVerb.chars ≠ []
  start : TimeText '-'
  beforeHyphen : Blanks
  afterHyphen : Blanks
  stop : TimeText '('
  afterStop : Blanks
  reason : Option ReasonText

/-- The reason in its parentheses, and the rest of the line. -/
def ReasonText.line (r : ReasonText) : List Char :=
  '(' :: (r.before.chars ++ (r.chars ++ r.after.chars) ++ ')' :: r.rest)

namespace WrittenLine

/-- The line itself. -/
def chars (l : WrittenLine) : List Char :=
  l.indent.chars ++ (l.word ++ (l.afterVerb.chars ++
    (l.start.chars ++ (l.beforeHyphen.chars ++ '-' :: (l.afterHyphen.chars ++
      (l.stop.chars ++ (l.afterStop.chars ++ (l.reason.map ReasonText.line).getD [])))))))

/-- The text that consists of given lines. -/
def text (ls : List WrittenLine) : String :=
  String.ofList (['\n'].intercalate (ls.map chars))

/-- What the action of a line says, when the line has a given number. -/
structure ReadAs (l : WrittenLine) (number : Nat) (a : Action) : Prop where
  line : a.line = number
  verb : a.verb = l.verb
  start : Time.parse (String.ofList l.start.chars) = .ok a.start
  stop : Time.parse (String.ofList l.stop.chars) = .ok a.stop
  reason : match l.reason with
    | none => a.reason = Reason.none
    | some r => Reason.parse (String.ofList r.chars) = .ok a.reason

end WrittenLine

/-! ### The verb -/

/-- The letters of the verbs, in either case, are no blanks and none of the marks of a line. -/
theorem Verb.letters (v : Verb) : ∀ letter ∈ v.name.toList, ∀ c ∈ [letter, letter.toUpper],
    c.toLower = letter ∧ Text.isBlank c = false ∧ c ≠ '#' ∧ c ≠ '\n' := by
  cases v <;> simp [name, Text.isBlank]

theorem spelled_letters {word letters : List Char}
    (h : List.Forall₂ (fun c letter => c = letter ∨ c = letter.toUpper) word letters)
    (hletters : ∀ letter ∈ letters, ∀ c ∈ [letter, letter.toUpper],
      c.toLower = letter ∧ Text.isBlank c = false ∧ c ≠ '#' ∧ c ≠ '\n') :
    word.map Char.toLower = letters ∧
      ∀ c ∈ word, Text.isBlank c = false ∧ c ≠ '#' ∧ c ≠ '\n' := by
  induction h with
  | nil => simp
  | @cons c letter word letters hc _ ih =>
    rw [List.forall_mem_cons] at hletters
    obtain ⟨hlower, hrest⟩ := ih hletters.2
    obtain ⟨hfirst, hplain⟩ := hletters.1 c (by simpa using hc)
    refine ⟨?_, List.forall_mem_cons.2 ⟨hplain, hrest⟩⟩
    rw [List.map_cons, hfirst, hlower]

namespace WrittenLine

variable (l : WrittenLine)

theorem word_plain : ∀ c ∈ l.word, Text.isBlank c = false ∧ c ≠ '#' ∧ c ≠ '\n' :=
  (spelled_letters l.spelled l.verb.letters).2

/-- The word on a line names its verb, in any mixture of cases. -/
theorem ofName?_word : Verb.ofName? (String.ofList l.word) = some l.verb := by
  have hlower : l.word.map Char.toLower = l.verb.name.toList :=
    (spelled_letters l.spelled l.verb.letters).1
  unfold Verb.ofName?
  rw [String.toList_ofList, hlower, String.ofList_toList]
  cases l.verb <;> decide

theorem word_ne_nil : l.word ≠ [] := by
  intro hnil
  have hlength := l.spelled.length_eq
  rw [hnil] at hlength
  cases hverb : l.verb <;> simp [hverb, Verb.name] at hlength

theorem trim_word : Text.trim l.word = l.word := by
  apply Text.trim_eq_self
  · intro c hc
    exact (l.word_plain c (List.mem_of_head? hc)).1
  · intro c hc
    exact (l.word_plain c (List.mem_of_getLast? hc)).1

theorem exists_lineTokens_verb (n : Nat) (cs : List Char) :
    ∃ column, lineTokens n (l.indent.chars ++ (l.word ++ (l.afterVerb.chars ++ cs))) =
      ⟨String.ofList l.word, n, 1 + l.indent.chars.length⟩ ::
        tokensFrom n .start .empty column cs := by
  have hplain := l.word_plain
  have htrim := l.trim_word
  obtain ⟨c, ds, hword⟩ := List.exists_cons_of_ne_nil l.word_ne_nil
  obtain ⟨w, ws, hws⟩ := List.exists_cons_of_ne_nil l.afterVerb_ne_nil
  have hblanks := l.afterVerb.blank
  rw [hws, Text.isBlankRun_cons] at hblanks
  rw [hword] at hplain htrim ⊢
  rw [List.forall_mem_cons] at hplain
  have hcomment : '#' ∉ c :: ds := by
    rw [List.mem_cons, not_or]
    exact ⟨Ne.symm hplain.1.2.1, fun hmem => (hplain.2 '#' hmem).2.1 rfl⟩
  have hreason : Field.verb = .reason → c ≠ ')' := nofun
  have hfull : (c :: ds).reverse.isEmpty = false := by
    rw [List.isEmpty_reverse]
    rfl
  -- the first blank after the word ends the verb, and those that follow it are skipped
  refine ⟨1 + l.indent.chars.length + (c :: ds).length + 1 + ws.length, ?_⟩
  unfold lineTokens
  rw [tokensFrom_blanks l.indent.blank, tokensFrom_field hplain.1.1 hreason hcomment
      (fun d hd => (hplain.2 d hd).1), hws, List.cons_append,
    tokensFrom_advance (by rw [hfull]; exact Field.step_verb hblanks.1), tokensFrom_blanks hblanks.2]
  simp [Pending.token, htrim]

end WrittenLine

/-! ### The times -/

namespace TimeText

variable {ender : Char} (t : TimeText ender) (as : Blanks) {field : Field} {line column : Nat}
  {cs : List Char}

theorem exists_cons : ∃ c ds, t.chars = c :: ds ∧ Text.isBlank c = false := by
  obtain ⟨c, hc, hblank⟩ := Option.map_eq_some_iff.1 t.head
  obtain ⟨ds, hchars⟩ := List.head?_eq_some_iff.1 hc
  exact ⟨c, ds, hchars, hblank⟩

theorem trim_chars : Text.trim t.chars = t.chars := by
  obtain ⟨c, ds, hchars, hblank⟩ := t.exists_cons
  obtain ⟨d, hd, hlast⟩ := Option.map_eq_some_iff.1 t.last
  apply Text.trim_eq_self
  · simpa [hchars] using hblank
  · simpa [hd] using hlast

/-- A time is taken up to its ender together with the blanks before that. -/
theorem tokensFrom_eq (hends : ∀ c, field.ends c = decide (c = ender))
    (hender : Text.isBlank ender = false) (hreason : field ≠ .reason) :
    tokensFrom line field .empty column (t.chars ++ (as.chars ++ cs)) =
      tokensFrom line field ⟨(t.chars ++ as.chars).reverse, column⟩
        (column + (t.chars ++ as.chars).length) cs := by
  obtain ⟨c, ds, hchars, hblank⟩ := t.exists_cons
  have hcomment : '#' ∉ c :: (ds ++ as.chars) := by
    rw [← List.cons_append, ← hchars, List.mem_append, not_or]
    exact ⟨t.uncommented, as.blank.not_mem (by decide)⟩
  have hrest : ∀ d ∈ ds ++ as.chars, field.ends d = false := by
    intro d hd
    rw [hends, decide_eq_false_iff_not]
    rintro rfl
    rcases List.mem_append.1 hd with hd | hd
    · exact t.unended (by simpa [hchars] using hd)
    · exact as.blank.not_mem hender hd
  -- the blanks after the time belong to its field until they are trimmed
  rw [← List.append_assoc t.chars, hchars, List.cons_append]
  exact tokensFrom_field hblank (fun h => absurd h hreason) hcomment hrest

theorem isEmpty_taken : (t.chars ++ as.chars).reverse.isEmpty = false := by
  obtain ⟨c, ds, hchars, -⟩ := t.exists_cons
  rw [List.isEmpty_reverse, hchars]
  rfl

theorem token_eq (here : Nat) :
    (⟨(t.chars ++ as.chars).reverse, column⟩ : Pending).token line here =
      ⟨String.ofList t.chars, line, column⟩ := by
  unfold Pending.token
  rw [List.reverse_reverse, Text.trim_append as.blank, t.trim_chars, isEmpty_taken]
  rfl

end TimeText

theorem ReasonText.not_mem_inner (r : ReasonText) {c : Char} (hc : Text.isBlank c = false)
    (h : c ∉ r.chars) : c ∉ r.before.chars ++ (r.chars ++ r.after.chars) := by
  rw [List.mem_append, List.mem_append]
  rintro (hmem | hmem | hmem)
  · exact r.before.blank.not_mem hc hmem
  · exact h hmem
  · exact r.after.blank.not_mem hc hmem

namespace WrittenLine

variable (l : WrittenLine)

/-- The start ends at the hyphen, even if it begins with one. -/
theorem exists_tokensFrom_start (n column : Nat) (cs : List Char) :
    ∃ column', tokensFrom n .start .empty column
        (l.start.chars ++ (l.beforeHyphen.chars ++ '-' :: cs)) =
      ⟨String.ofList l.start.chars, n, column⟩ :: tokensFrom n .stop .empty column' cs := by
  have hfull := l.start.isEmpty_taken l.beforeHyphen
  refine ⟨column + (l.start.chars ++ l.beforeHyphen.chars).length + 1, ?_⟩
  rw [l.start.tokensFrom_eq l.beforeHyphen (fun _ => rfl) (by decide) (by decide),
    tokensFrom_advance (by rw [hfull]; rfl), l.start.token_eq]

/-- The stop ends at the parenthesis or with the line, and the reason at the parenthesis that
closes. -/
theorem map_text_tokensFrom_stop (n column : Nat) :
    (tokensFrom n .stop .empty column (l.afterHyphen.chars ++ (l.stop.chars ++
        (l.afterStop.chars ++ (l.reason.map ReasonText.line).getD [])))).map Token.text =
      String.ofList l.stop.chars ::
        (l.reason.map fun r => String.ofList (Text.trim r.chars)).toList := by
  have hfull := l.stop.isEmpty_taken l.afterStop
  rw [tokensFrom_blanks l.afterHyphen.blank,
    l.stop.tokensFrom_eq l.afterStop (fun _ => rfl) (by decide) (by decide)]
  cases l.reason with
  | none =>
    show (tokensFrom _ _ _ _ []).map Token.text = _
    rw [tokensFrom_nil hfull, l.stop.token_eq]
    rfl
  | some r =>
    have hcomment := r.not_mem_inner (by decide) r.uncommented
    have hclose := r.not_mem_inner (by decide) r.unended
    show (tokensFrom _ _ _ _ ('(' :: _)).map Token.text = _
    rw [tokensFrom_advance (by rw [hfull]; rfl), l.stop.token_eq,
      tokensFrom_reason hcomment hclose, Text.trim_append_left r.before.blank,
      Text.trim_append r.after.blank]
    rfl

/-! ### The line -/

/-- The tokens of a line have the texts of its parts. -/
theorem map_text_lineTokens (n : Nat) :
    (lineTokens n l.chars).map Token.text =
      String.ofList l.word :: String.ofList l.start.chars :: String.ofList l.stop.chars ::
        (l.reason.map fun r => String.ofList (Text.trim r.chars)).toList := by
  unfold chars
  obtain ⟨column, hverb⟩ := l.exists_lineTokens_verb n (l.start.chars ++ (l.beforeHyphen.chars ++
    '-' :: (l.afterHyphen.chars ++ (l.stop.chars ++ (l.afterStop.chars ++
      (l.reason.map ReasonText.line).getD [])))))
  obtain ⟨column', hstart⟩ := l.exists_tokensFrom_start n column (l.afterHyphen.chars ++
    (l.stop.chars ++ (l.afterStop.chars ++ (l.reason.map ReasonText.line).getD [])))
  rw [hverb, hstart, List.map_cons, List.map_cons, map_text_tokensFrom_stop]

theorem not_mem_chars : '\n' ∉ l.chars := by
  have hword : '\n' ∉ l.word := fun hmem => (l.word_plain '\n' hmem).2.2 rfl
  have hreason : '\n' ∉ (l.reason.map ReasonText.line).getD [] := by
    cases l.reason with
    | none => exact List.not_mem_nil
    | some r =>
      simp [ReasonText.line, r.before.inLine, r.inLine, r.after.inLine, r.rest_inLine]
  simp [chars, hword, hreason, l.indent.inLine, l.afterVerb.inLine, l.start.inLine,
    l.beforeHyphen.inLine, l.afterHyphen.inLine, l.stop.inLine, l.afterStop.inLine]

/-- The reason of a line can be read, and no token follows it. -/
theorem exists_readReason {ts : List Token}
    (h : ts.map Token.text = (l.reason.map fun r => String.ofList (Text.trim r.chars)).toList) :
    ∃ reason, Action.readReason ts[0]? = .ok reason ∧ ts[1]? = none ∧
      match l.reason with
      | none => reason = Reason.none
      | some r => Reason.parse (String.ofList r.chars) = .ok reason := by
  cases hreason : l.reason with
  | none =>
    rw [hreason] at h
    obtain rfl := List.map_eq_nil_iff.1 h
    exact ⟨Reason.none, rfl, rfl, rfl⟩
  | some r =>
    rw [hreason] at h
    obtain ⟨t, ts, rfl, ht, hts⟩ := List.map_eq_cons_iff.1 h
    obtain rfl := List.map_eq_nil_iff.1 hts
    have hcolons : (String.ofList r.chars).toList.count ':' ≤ 1 := by
      rw [String.toList_ofList]
      exact r.colons
    obtain ⟨reason, hparse⟩ := Reason.exists_parse_eq_ok_iff.2 hcolons
    refine ⟨reason, Action.readReason_some_eq_ok_iff.2 ?_, rfl, hparse⟩
    rw [ht, Reason.parse_trim, hparse]

/-- A line is read as the action that it says. -/
theorem exists_ofLine (n : Nat) :
    ∃ t ts a, lineTokens n l.chars = t :: ts ∧ Action.ofLine t ts = .ok a ∧ l.ReadAs n a := by
  obtain ⟨verb, ts, htokens, hverb, h⟩ := List.map_eq_cons_iff.1 (l.map_text_lineTokens n)
  obtain ⟨start, ts, rfl, hstart, h⟩ := List.map_eq_cons_iff.1 h
  obtain ⟨stop, ts, rfl, hstop, h⟩ := List.map_eq_cons_iff.1 h
  obtain ⟨startTime, hstartTime⟩ := l.start.readable
  obtain ⟨stopTime, hstopTime⟩ := l.stop.readable
  obtain ⟨reason, hreason, hsurplus, hsays⟩ := l.exists_readReason h
  have hline : verb.line = n := line_of_mem_tokensFrom (htokens ▸ List.mem_cons_self)
  refine ⟨verb, _, _, htokens, Action.ofLine_eq_ok_iff.2 ⟨l.verb, startTime, stopTime, reason,
    Action.readVerb_eq_ok_iff.2 ?_, Action.readTime_some_eq_ok_iff.2 ?_,
    Action.readTime_some_eq_ok_iff.2 ?_,
    hreason, hsurplus, rfl⟩, ?_⟩
  · rw [hverb, l.ofName?_word]
  · rw [hstart, hstartTime]
  · rw [hstop, hstopTime]
  · exact ⟨hline, rfl, hstartTime, hstopTime, hsays⟩

/-! ### All lines -/

/-- Lines are read one by one, by induction on them with the number of the first one left open. -/
theorem exists_ofTokens_linesTokens (ls : List WrittenLine) (n : Nat) :
    ∃ actions, Action.ofTokens (linesTokens n (ls.map chars)) = .ok actions ∧
      List.Forall₂ (fun l a => l.1.ReadAs l.2 a) (ls.zipIdx n) actions := by
  induction ls generalizing n with
  | nil => exact ⟨[], rfl, .nil⟩
  | cons l ls ih =>
    obtain ⟨actions, hactions, hall⟩ := ih (n + 1)
    obtain ⟨t, ts, a, htokens, hline, hread⟩ := l.exists_ofLine n
    have ht : ∀ u ∈ t :: ts, u.line = n := by
      intro u hu
      rw [← htokens] at hu
      exact line_of_mem_tokensFrom hu
    rw [List.forall_mem_cons] at ht
    refine ⟨a :: actions, ?_, List.zipIdx_cons ▸ .cons hread hall⟩
    rw [List.map_cons, linesTokens, htokens, List.cons_append]
    -- the tokens of this line have its number, and those of the lines after it a greater one
    apply Action.ofTokens_line_append _ _ hline hactions
    · intro u hu
      rw [ht.2 u hu, ht.1]
    · intro u hu
      have hle := le_line_of_mem_linesTokens hu
      omega

/-- However lines of the form are laid out, they are read as one action each, in their order, with
the number, the verb, the times and the reason of the line. -/
theorem written_lines_are_read (ls : List WrittenLine) :
    ∃ actions, Action.ofTokens (tokens (text ls)) = .ok actions ∧
      List.Forall₂ (fun l a => l.1.ReadAs l.2 a) (ls.zipIdx 1) actions := by
  rw [tokens_eq, text, String.toList_ofList]
  cases ls with
  | nil => exact ⟨[], rfl, .nil⟩
  | cons l ls =>
    -- no line holds a line feed, so splitting the text gives the lines back
    rw [List.splitOn_intercalate _ _ (by simp)]
    · exact exists_ofTokens_linesTokens (l :: ls) 1
    · intro cs hcs
      obtain ⟨l', -, rfl⟩ := List.mem_map.1 hcs
      exact l'.not_mem_chars

/-- A line with a verb in mixed case, a start that begins with a hyphen, and a carriage return at the
end. -/
def signedStart : WrittenLine where
  indent := ⟨['\t'], by decide, by decide⟩
  verb := .cut
  word := "CuT".toList
  spelled := by simp [Verb.name]
  afterVerb := ⟨[' ', ' '], by decide, by decide⟩
  afterVerb_ne_nil := by decide
  start := ⟨"-0".toList, by decide, by decide, by decide, by decide, by decide,
    exists_eq_ok (by decide +kernel)⟩
  beforeHyphen := ⟨[' '], by decide, by decide⟩
  afterHyphen := ⟨[' '], by decide, by decide⟩
  stop := ⟨"1:02.5".toList, by decide, by decide, by decide, by decide, by decide,
    exists_eq_ok (by decide +kernel)⟩
  afterStop := ⟨[' ', '\r'], by decide, by decide⟩
  reason := none

/-- A line without blanks around its hyphen, on which text stands after the reason. -/
def withRest : WrittenLine where
  indent := ⟨[], by decide, by decide⟩
  verb := .mute
  word := "mute".toList
  spelled := by simp [Verb.name]
  afterVerb := ⟨[' '], by decide, by decide⟩
  afterVerb_ne_nil := by decide
  start := ⟨"1:3".toList, by decide, by decide, by decide, by decide, by decide,
    exists_eq_ok (by decide +kernel)⟩
  beforeHyphen := ⟨[], by decide, by decide⟩
  afterHyphen := ⟨[], by decide, by decide⟩
  stop := ⟨"1:4".toList, by decide, by decide, by decide, by decide, by decide,
    exists_eq_ok (by decide +kernel)⟩
  afterStop := ⟨[], by decide, by decide⟩
  reason := some
    { before := ⟨[' '], by decide, by decide⟩
      chars := "Bad : word".toList
      after := ⟨[' '], by decide, by decide⟩
      rest := " ) # rest".toList
      inLine := by decide
      uncommented := by decide
      unended := by decide
      colons := by decide
      rest_inLine := by decide }

/-- A signed start and a carriage return; and a line on which text and a comment follow the reason. -/
theorem written_lines_are_read_two_lines :
    text [signedStart, withRest] =
        "\tCuT  -0 - 1:02.5 \r\nmute 1:3-1:4( Bad : word ) ) # rest" ∧
      ∃ a b, Action.ofTokens (tokens (text [signedStart, withRest])) = .ok [a, b] ∧
        signedStart.ReadAs 1 a ∧ withRest.ReadAs 2 b := by
  obtain ⟨actions, hread, hall⟩ := written_lines_are_read [signedStart, withRest]
  obtain ⟨a, as, ha, hrest, rfl⟩ := List.forall₂_cons_left_iff.1 hall
  obtain ⟨b, bs, hb, hnil, rfl⟩ := List.forall₂_cons_left_iff.1 hrest
  obtain rfl := List.forall₂_nil_left_iff.1 hnil
  exact ⟨by decide +kernel, a, b, hread, ha, hb⟩

end WrittenLine

end EditList
