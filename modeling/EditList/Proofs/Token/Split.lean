import EditList.Proofs.Token.Place

/-!
# The tokens of a line by splitting

A line can be taken apart without following it character by character.  In what stands before the
comment, the blanks before a field are skipped, the field runs up to the character that ends it, and
the next field starts behind that character (`splitFields`).  A start and a stop take their first
character whatever it is, and a reason may be empty.  A field that nothing ends is a token if it has
characters and no comment breaks it off.

* `lineTokens_eq_splitLine`: this gives the tokens of every line.
-/

namespace EditList

/-! ### Splitting off a field -/

namespace Field

/-- The number of characters that a field takes whatever they are. -/
def lead : Field → ℕ
  | .verb => 0
  | .start => 1
  | .stop => 1
  | .reason => 0

/-- The characters of a field that starts where `cs` does. -/
def body (field : Field) (cs : List Char) : List Char :=
  cs.take field.lead ++ (cs.drop field.lead).takeWhile fun c => !field.ends c

/-- What is left of `cs` behind a field, from the character that ends the field on. -/
def after (field : Field) (cs : List Char) : List Char :=
  (cs.drop field.lead).dropWhile fun c => !field.ends c

/-- The token of a field that starts where `cs` does. -/
def token (field : Field) (line column : ℕ) (cs : List Char) : Token :=
  ⟨String.ofList (Text.trimEnd (field.body cs)), line, column⟩

/-- The fields from a field on. -/
def onward (field : Field) : List Field :=
  [Field.verb, .start, .stop, .reason].drop field.index

end Field

/-- The tokens of consecutive fields in `cs`, which starts at a column.  When nothing ends a field, it
is a token only if the line is `unbroken`, that is, has no comment. -/
def splitFields (line : ℕ) (unbroken : Bool) : List Field → ℕ → List Char → List Token
  | [], _, _ => []
  | field :: fields, column, cs =>
    let first := column + (cs.takeWhile Text.isBlank).length
    let rest := cs.dropWhile Text.isBlank
    match field.after rest with
    | [] => if unbroken && !(field.body rest).isEmpty then [field.token line first rest] else []
    | _ :: behind =>
      field.token line first rest ::
        splitFields line unbroken fields (first + (field.body rest).length + 1) behind

/-- The tokens of the line with a given number, by splitting. -/
def splitLine (line : ℕ) (cs : List Char) : List Token :=
  splitFields line (decide ('#' ∉ cs)) [.verb, .start, .stop, .reason] 1 (Text.uncommented cs)

namespace Field

variable {field next : Field} {c : Char}

@[simp] theorem body_nil : field.body [] = [] := by
  simp [body]

@[simp] theorem after_nil : field.after [] = [] := by
  simp [after]

theorem body_append_after (field : Field) (cs : List Char) : field.body cs ++ field.after cs = cs := by
  unfold body after
  rw [List.append_assoc, List.takeWhile_append_dropWhile, List.take_append_drop]

theorem mem_of_mem_behind {cs behind : List Char} {d : Char} (h : field.after cs = d :: behind)
    (hc : c ∈ behind) : c ∈ cs := by
  rw [← field.body_append_after cs, h]
  exact List.mem_append_right _ (List.mem_cons_of_mem _ hc)

/-- A character that is not blank starts a field even where it would end it later, unless it closes an
empty reason. -/
theorem split_cons (hblank : Text.isBlank c = false) (hreason : field = .reason → c ≠ ')')
    (ds : List Char) :
    field.body (c :: ds) = c :: ds.takeWhile (fun d => !field.ends d) ∧
      field.after (c :: ds) = ds.dropWhile fun d => !field.ends d := by
  cases field with
  | verb => simp [body, after, lead, ends, hblank]
  | start => simp [body, after, lead]
  | stop => simp [body, after, lead]
  | reason => simp [body, after, lead, ends, hreason rfl]

theorem onward_eq (field : Field) :
    field.onward = field :: (field.next?.map onward).getD [] := by
  cases field <;> rfl

/-- What holds of a field when it holds of the next one holds of every field. -/
@[elab_as_elim]
theorem next_induction {motive : Field → Prop}
    (step : ∀ field, (∀ next, field.next? = some next → motive next) → motive field)
    (field : Field) : motive field := by
  have hreason : motive .reason := step _ nofun
  have hstop : motive .stop := step _ fun _ h => Option.some.inj h ▸ hreason
  have hstart : motive .start := step _ fun _ h => Option.some.inj h ▸ hstop
  have hverb : motive .verb := step _ fun _ h => Option.some.inj h ▸ hstart
  cases field <;> assumption

theorem eq_reason_of_next? (h : field.next? = none) : field = .reason := by
  cases field with
  | reason => rfl
  | _ => cases h

theorem ne_comment_of_ends (h : field.ends c = true) : c ≠ '#' := by
  rintro rfl
  cases field <;> revert h <;> decide

/-- Where a field ends and another one follows, the state machine goes on to that one. -/
theorem step_of_ends_of_next? (hends : field.ends c = true) (hnext : field.next? = some next) :
    field.step c false = .advance next := by
  have hcomment := ne_comment_of_ends hends
  cases field <;> cases hnext <;> simp_all [step, ends]

end Field

/-! ### Following a field -/

variable {line column : ℕ} {unbroken : Bool} {field : Field} {p : Pending} {tail : List Char}

/-- The character that ends a field gives its token, and the next field is begun behind it. -/
theorem tokensFrom_of_ends {c : Char} (hp : p.taken.isEmpty = false) (hends : field.ends c = true)
    (cs : List Char) :
    tokensFrom line field p column (c :: cs) = p.token line column ::
      (field.next?.map fun next => tokensFrom line next .empty (column + 1) cs).getD [] := by
  cases hnext : field.next? with
  | some next =>
    have hstep : field.step c p.taken.isEmpty = .advance next := by
      rw [hp]
      exact Field.step_of_ends_of_next? hends hnext
    rw [tokensFrom_advance hstep]
    rfl
  | none =>
    obtain rfl := Field.eq_reason_of_next? hnext
    obtain rfl : c = ')' := by simpa [Field.ends] using hends
    rw [tokensFrom_finish rfl]
    rfl

/-- The token of a field that has been followed to its end. -/
theorem Pending.token_body {c : Char} (hblank : Text.isBlank c = false)
    (hreason : field = .reason → c ≠ ')') (ds : List Char) (line column here : ℕ) :
    (Pending.mk (field.body (c :: ds)).reverse column).token line here =
      field.token line column (c :: ds) := by
  obtain ⟨hbody, -⟩ := Field.split_cons hblank hreason ds
  rw [Field.token, hbody, ← Text.trim_cons hblank]
  simp [Pending.token]

/-- The state machine takes a field as a whole. -/
theorem tokensFrom_body {c : Char} {ds : List Char} (hblank : Text.isBlank c = false)
    (hreason : field = .reason → c ≠ ')') (hcomment : '#' ∉ c :: ds) :
    tokensFrom line field .empty column (c :: ds ++ tail) =
      tokensFrom line field ⟨(field.body (c :: ds)).reverse, column⟩
        (column + (field.body (c :: ds)).length) (field.after (c :: ds) ++ tail) := by
  obtain ⟨hbody, hafter⟩ := Field.split_cons hblank hreason ds
  have hsplit := field.body_append_after (c :: ds)
  rw [hbody] at hsplit
  have hends : ∀ d ∈ ds.takeWhile (fun d => !field.ends d), field.ends d = false := by
    intro d hd
    simpa using List.all_eq_true.1 List.all_takeWhile d hd
  have hcomment' : '#' ∉ c :: ds.takeWhile fun d => !field.ends d := by
    rw [← hsplit] at hcomment
    exact fun hmem => hcomment (List.mem_append_left _ hmem)
  rw [hbody, ← tokensFrom_field hblank hreason hcomment' hends, ← List.append_assoc, hsplit]

/-! ### Following a line -/

/-- At `tail` a line has no more fields: a field that has begun there is a token if the line is
`unbroken`, and dropped otherwise. -/
def EndsFields (line : ℕ) (unbroken : Bool) (tail : List Char) : Prop :=
  ∀ field p column, tokensFrom line field p column tail =
    if unbroken && !p.taken.isEmpty then [p.token line column] else []

/-- After the part before a comment, or after the whole line, no field begins. -/
theorem exists_endsFields (line : ℕ) (cs : List Char) :
    ∃ tail, cs = Text.uncommented cs ++ tail ∧ EndsFields line (decide ('#' ∉ cs)) tail := by
  by_cases hmem : '#' ∈ cs
  · obtain ⟨before, comment, rfl, hbefore⟩ := List.eq_append_cons_of_mem hmem
    refine ⟨'#' :: comment, ?_, fun field p column => ?_⟩
    · rw [Text.uncommented_append hbefore]
      simp [Text.uncommented]
    · rw [tokensFrom_comment, decide_eq_false (not_not_intro hmem)]
      rfl
  · refine ⟨[], ?_, fun field p column => ?_⟩
    · simpa [Text.uncommented] using (Text.uncommented_append hmem []).symm
    · rw [tokensFrom, decide_eq_true hmem]
      cases p.taken.isEmpty <;> rfl

/-- A field without a character before the end of the line gives nothing, as do the fields after it. -/
theorem EndsFields.tokensFrom_empty (htail : EndsFields line unbroken tail) :
    tokensFrom line field .empty column tail = [] := by
  rw [htail]
  exact if_neg (by simp [Pending.empty])

/-- One field at the start of what is left of a line. -/
theorem tokensFrom_append_tail (htail : EndsFields line unbroken tail) {rest : List Char}
    (hcomment : '#' ∉ rest) (hhead : ∀ c ∈ rest.head?, Text.isBlank c = false) :
    tokensFrom line field .empty column (rest ++ tail) =
      match field.after rest with
      | [] => if unbroken && !(field.body rest).isEmpty then [field.token line column rest] else []
      | _ :: behind => field.token line column rest :: (field.next?.map fun next =>
          tokensFrom line next .empty (column + (field.body rest).length + 1)
            (behind ++ tail)).getD [] := by
  cases rest with
  | nil => simp [htail.tokensFrom_empty]
  | cons c ds =>
    have hblank : Text.isBlank c = false := hhead c rfl
    by_cases hclosed : field = .reason ∧ c = ')'
    · -- the reason is empty, and its token is at the parenthesis
      obtain ⟨rfl, rfl⟩ := hclosed
      rw [List.cons_append, tokensFrom_finish rfl]
      rfl
    · have hreason : field = .reason → c ≠ ')' := fun h hc => hclosed ⟨h, hc⟩
      have htoken := Pending.token_body hblank hreason ds line column
      obtain ⟨hbody, hafter⟩ := Field.split_cons hblank hreason ds
      have hbegun : (field.body (c :: ds)).reverse.isEmpty = false := by
        rw [hbody]
        simp
      rw [tokensFrom_body hblank hreason hcomment]
      cases hcase : field.after (c :: ds) with
      | nil =>
        rw [List.nil_append, htail, htoken]
        simp
      | cons d behind =>
        have hends : field.ends d = true := by
          have hhead := List.head?_dropWhile_not (fun d => !field.ends d) ds
          rw [← hafter, hcase] at hhead
          simpa using hhead
        rw [List.cons_append, tokensFrom_of_ends hbegun hends, htoken]

/-- From any field on, the state machine gives the tokens that splitting gives. -/
theorem tokensFrom_append_eq_splitFields (htail : EndsFields line unbroken tail) (field : Field)
    (column : ℕ) {cs : List Char} (hcs : '#' ∉ cs) :
    tokensFrom line field .empty column (cs ++ tail) =
      splitFields line unbroken field.onward column cs := by
  induction field using Field.next_induction generalizing column cs with
  | step field ih =>
    -- the fields after this one, where there are any
    have hnext : ∀ column {ds : List Char}, '#' ∉ ds →
        (field.next?.map fun next => tokensFrom line next .empty column (ds ++ tail)).getD [] =
          splitFields line unbroken ((field.next?.map Field.onward).getD []) column ds := by
      intro column ds hds
      cases hfield : field.next? with
      | none => rfl
      | some next => exact ih next hfield column hds
    have hsplit := List.takeWhile_append_dropWhile (p := Text.isBlank) (l := cs)
    have hrest : '#' ∉ cs.dropWhile Text.isBlank :=
      fun hmem => hcs ((List.dropWhile_suffix _).mem hmem)
    calc tokensFrom line field .empty column (cs ++ tail)
        = tokensFrom line field .empty (column + (cs.takeWhile Text.isBlank).length)
            (cs.dropWhile Text.isBlank ++ tail) := by
          rw [← tokensFrom_blanks (Text.isBlankRun_takeWhile cs), ← List.append_assoc, hsplit]
      _ = splitFields line unbroken field.onward column cs := by
          rw [tokensFrom_append_tail htail hrest (Text.not_isBlank_head_dropWhile cs), Field.onward_eq,
            splitFields]
          cases hafter : field.after (cs.dropWhile Text.isBlank) with
          | nil => rfl
          | cons d behind =>
            have hbehind : '#' ∉ behind :=
              fun hmem => hrest (Field.mem_of_mem_behind hafter hmem)
            simp only [hnext _ hbehind]

theorem tokensFrom_eq_splitFields (line : ℕ) (field : Field) (column : ℕ) (cs : List Char) :
    tokensFrom line field .empty column cs =
      splitFields line (decide ('#' ∉ cs)) field.onward column (Text.uncommented cs) := by
  obtain ⟨tail, hsplit, htail⟩ := exists_endsFields line cs
  have hcomment := Text.not_mem_uncommented cs
  rw [← tokensFrom_append_eq_splitFields htail field column hcomment, ← hsplit]

/-- Going over a line character by character and splitting it into fields give the same tokens. -/
theorem lineTokens_eq_splitLine (line : ℕ) (cs : List Char) :
    lineTokens line cs = splitLine line cs := by
  have hfields : [Field.verb, .start, .stop, .reason] = Field.verb.onward := rfl
  rw [lineTokens, splitLine, hfields]
  exact tokensFrom_eq_splitFields line .verb 1 cs

-- the first hyphen belongs to the start, and the first parenthesis to the stop
example : lineTokens 1 "cut --(1 - ((a)b".toList =
    [⟨"cut", 1, 1⟩, ⟨"-", 1, 5⟩, ⟨"(1 -", 1, 7⟩, ⟨"(a", 1, 13⟩] := by decide +kernel

end EditList
