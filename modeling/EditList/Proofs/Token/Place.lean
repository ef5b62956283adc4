import EditList.Proofs.Token
import Mathlib.Data.List.Infix

/-!
# Where the tokens of a line stand

Following a line character by character, the part of a field that has been seen is always the end of
what has been read, and its first character is not blank (`Pending.EndsWith`).  So a token stands on
its line where its column says, before the comment (`Token.StandsOn`).

`FieldTokens` says what can come out of a field and those after it: each field but the last gives a
token with a text before the next one is begun.  Hence a line has at most four tokens
(`length_lineTokens_le`), and only the fourth may be empty (`text_ne_empty_of_lineTokens`).
-/

namespace EditList

/-! ### What a character does -/

namespace Field

/-- The field after a field. -/
def next? : Field → Option Field
  | .verb => some .start
  | .start => some .stop
  | .stop => some .reason
  | .reason => none

/-- The number of fields before a field. -/
def index : Field → Nat
  | .verb => 0
  | .start => 1
  | .stop => 2
  | .reason => 3

theorem index_of_next? {field next : Field} (h : field.next? = some next) :
    next.index = field.index + 1 := by
  cases field <;> cases h <;> rfl

variable {field next : Field} {c : Char} {empty : Bool}

/-- A character that is taken is no comment, and the first one is no blank. -/
theorem of_step_eq_push (h : field.step c empty = .push) :
    c ≠ '#' ∧ (empty = true → Text.isBlank c = false) := by
  have hcomment : c ≠ '#' := by
    rintro rfl
    cases h
  refine ⟨hcomment, ?_⟩
  rintro rfl
  cases hblank : Text.isBlank c with
  | false => rfl
  | true =>
    rw [step_true_of_isBlank hblank] at h
    cases h

theorem of_step_eq_skip (h : field.step c empty = .skip) :
    empty = true ∧ Text.isBlank c = true := by
  cases field <;> simp only [step] at h <;> split_ifs at h <;> simp_all

/-- A field that is ended has begun, and another one follows it. -/
theorem of_step_eq_advance (h : field.step c empty = .advance next) :
    c ≠ '#' ∧ empty = false ∧ field.next? = some next := by
  cases field <;> simp only [step] at h <;> split_ifs at h <;> simp_all [next?]

/-- Only the reason ends a line. -/
theorem of_step_eq_finish (h : field.step c empty = .finish) : field = .reason := by
  cases field <;> simp only [step] at h <;> split_ifs at h
  rfl

end Field

/-! ### A token on its line -/

/-- The part of a line before its comment. -/
def Text.uncommented (cs : List Char) : List Char :=
  cs.takeWhile (· ≠ '#')

theorem Text.uncommented_append {as : List Char} (has : '#' ∉ as) (bs : List Char) :
    uncommented (as ++ bs) = as ++ uncommented bs := by
  apply List.takeWhile_append_of_pos
  intro c hc
  rw [decide_eq_true_iff]
  rintro rfl
  exact has hc

theorem Text.not_mem_uncommented (cs : List Char) : '#' ∉ uncommented cs := by
  intro hmem
  simpa using List.all_eq_true.1 List.all_takeWhile _ hmem

/-- Trimming a text that does not start with a blank leaves a beginning of it, which is not empty. -/
theorem Text.trim_cons_isPrefix {c : Char} (hc : isBlank c = false) (ds : List Char) :
    trim (c :: ds) ≠ [] ∧ trim (c :: ds) <+: c :: ds := by
  obtain ⟨as, bs, has, hbs, heq⟩ := exists_eq_append_trim (c :: ds)
  have hmem : c ∉ as ∧ c ∉ bs := ⟨has.not_mem hc, hbs.not_mem hc⟩
  cases as with
  | cons a as =>
    obtain ⟨rfl, -⟩ := List.cons.inj heq
    exact absurd List.mem_cons_self hmem.1
  | nil =>
    refine ⟨?_, bs, heq.symm⟩
    intro hnil
    rw [hnil, List.nil_append, List.nil_append] at heq
    exact hmem.2 (heq ▸ List.mem_cons_self)

/-- A token that stands on a line: from its column on, and before the comment, the line has the
text of the token, which has no blanks around it. -/
structure Token.StandsOn (t : Token) (cs : List Char) : Prop where
  one_le : 1 ≤ t.column
  le_length : t.column ≤ cs.length
  isPrefix : t.text.toList <+: (Text.uncommented cs).drop (t.column - 1)
  trimmed : Text.trim t.text.toList = t.text.toList

namespace Pending

/-- Of the field, nothing has been seen yet, or what has been seen is the end of what was read and
does not start with a blank. -/
inductive EndsWith : Pending → List Char → Prop
  | fresh (read : List Char) : EndsWith .empty read
  | begun (before : List Char) (c : Char) (ds : List Char) (hc : Text.isBlank c = false) :
    EndsWith ⟨(c :: ds).reverse, before.length + 1⟩ (before ++ c :: ds)

variable {p : Pending} {read : List Char} {c : Char}

theorem EndsWith.skip (h : p.EndsWith read) (hempty : p.taken.isEmpty = true) :
    p.EndsWith (read ++ [c]) := by
  cases h with
  | fresh => exact .fresh _
  | begun before d ds hd => simp at hempty

theorem EndsWith.push (h : p.EndsWith read) (hc : p.taken.isEmpty = true → Text.isBlank c = false) :
    (p.push c (read.length + 1)).EndsWith (read ++ [c]) := by
  cases h with
  | fresh => exact .begun read c [] (hc rfl)
  | begun before d ds hd =>
    have htaken : (Pending.mk (d :: ds).reverse (before.length + 1)).push c
        ((before ++ d :: ds).length + 1) = ⟨(d :: (ds ++ [c])).reverse, before.length + 1⟩ := by
      simp [Pending.push]
    rw [htaken, List.append_assoc, List.cons_append]
    exact .begun before d (ds ++ [c]) hd

/-- A field that has begun gives a token with a text, which stands where the field began. -/
theorem EndsWith.token (h : p.EndsWith read) (hempty : p.taken.isEmpty = false)
    (hread : '#' ∉ read) (line here : Nat) (cs : List Char) :
    (p.token line here).text ≠ "" ∧ (p.token line here).StandsOn (read ++ cs) := by
  cases h with
  | fresh => simp [Pending.empty] at hempty
  | begun before c ds hc =>
    obtain ⟨hne, hprefix⟩ := Text.trim_cons_isPrefix hc ds
    have htoken : (Pending.mk (c :: ds).reverse (before.length + 1)).token line here =
        ⟨String.ofList (Text.trim (c :: ds)), line, before.length + 1⟩ := by
      simp [Pending.token]
    rw [htoken]
    refine ⟨?_, ?_, ?_, ?_, ?_⟩
    · simpa using hne
    · simp
    · simp
    · rw [Text.uncommented_append hread, List.append_assoc, Nat.add_sub_cancel, List.drop_left,
        String.toList_ofList]
      exact hprefix.trans (List.prefix_append _ _)
    · rw [String.toList_ofList, Text.trim_trim]

/-- A field that ends before it has begun has its token where it ends, and no text. -/
theorem token_empty_standsOn (line : Nat) (read : List Char) (cs : List Char) :
    (Pending.empty.token line (read.length + 1)).StandsOn (read ++ c :: cs) := by
  refine ⟨?_, ?_, ?_, rfl⟩
  · simp [Pending.token, Pending.empty]
  · simp [Pending.token, Pending.empty]
  · exact List.nil_prefix

end Pending

/-! ### The tokens of the fields -/

/-- What a line can give from a field on. -/
inductive FieldTokens (cs : List Char) : Field → List Token → Prop
  /-- The field is not there, or a comment follows before it ends. -/
  | none (field : Field) : FieldTokens cs field []
  /-- The line ends with the field. -/
  | last {field : Field} {t : Token} (hplace : t.StandsOn cs) (htext : t.text ≠ "") :
    FieldTokens cs field [t]
  /-- Another field follows. -/
  | next {field next : Field} {t : Token} {ts : List Token} (hplace : t.StandsOn cs)
    (htext : t.text ≠ "") (hnext : field.next? = some next) (hrest : FieldTokens cs next ts) :
    FieldTokens cs field (t :: ts)
  /-- The parenthesis of the reason is closed. -/
  | closed {t : Token} (hplace : t.StandsOn cs) : FieldTokens cs .reason [t]

/-- The tokens that a line gives from a field on, with the invariant `EndsWith` for the part that
was read. -/
theorem fieldTokens_tokensFrom {line : Nat} {field : Field} {p : Pending} {read : List Char}
    (hp : p.EndsWith read) (hread : '#' ∉ read) (cs : List Char) :
    FieldTokens (read ++ cs) field (tokensFrom line field p (read.length + 1) cs) := by
  induction cs generalizing field p read with
  | nil =>
    cases hempty : p.taken.isEmpty with
    | true => simpa [tokensFrom, hempty] using FieldTokens.none field
    | false =>
      obtain ⟨htext, hplace⟩ := hp.token hempty hread line (read.length + 1) []
      rw [tokensFrom_nil hempty]
      exact .last hplace htext
  | cons c cs ih =>
    -- the rest of the line is read after one more character
    have hlength : read.length + 1 + 1 = (read ++ [c]).length + 1 := by simp
    have hsplit : read ++ c :: cs = read ++ [c] ++ cs := by simp
    have hread' : c ≠ '#' → '#' ∉ read ++ [c] := by
      intro hc
      simp [hread, Ne.symm hc]
    cases hstep : field.step c p.taken.isEmpty with
    | push =>
      obtain ⟨hcomment, hblank⟩ := Field.of_step_eq_push hstep
      rw [tokensFrom_push hstep, hlength, hsplit]
      exact ih (hp.push hblank) (hread' hcomment)
    | skip =>
      obtain ⟨hempty, hblank⟩ := Field.of_step_eq_skip hstep
      rw [tokensFrom_skip hstep, hlength, hsplit]
      exact ih (hp.skip hempty) (hread' (Field.ne_comment_of_isBlank hblank))
    | advance next =>
      obtain ⟨hcomment, hempty, hnext⟩ := Field.of_step_eq_advance hstep
      obtain ⟨htext, hplace⟩ := hp.token hempty hread line (read.length + 1) (c :: cs)
      rw [tokensFrom_advance hstep]
      refine .next hplace htext hnext ?_
      rw [hlength, hsplit]
      exact ih (.fresh _) (hread' hcomment)
    | finish =>
      obtain rfl := Field.of_step_eq_finish hstep
      rw [tokensFrom_finish hstep]
      refine .closed ?_
      cases hempty : p.taken.isEmpty with
      | false => exact (hp.token hempty hread line (read.length + 1) (c :: cs)).2
      | true =>
        cases hp with
        | fresh => exact Pending.token_empty_standsOn line read cs
        | begun before d ds hd => simp at hempty
    | abandon =>
      rw [tokensFrom, hstep]
      exact .none field

namespace FieldTokens

variable {cs : List Char} {field : Field} {ts : List Token}

theorem standsOn (h : FieldTokens cs field ts) : ∀ t ∈ ts, t.StandsOn cs := by
  induction h with
  | none => exact nofun
  | last hplace => simpa using hplace
  | next hplace _ _ _ ih => exact List.forall_mem_cons.2 ⟨hplace, ih⟩
  | closed hplace => simpa using hplace

/-- There are at most as many tokens as fields that are left. -/
theorem length_add_index_le (h : FieldTokens cs field ts) : ts.length + field.index ≤ 4 := by
  induction h with
  | none field => cases field <;> decide
  | @last field => cases field <;> simp [Field.index]
  | next _ _ hnext _ ih =>
    have hindex := Field.index_of_next? hnext
    rw [List.length_cons]
    omega
  | closed => simp [Field.index]

/-- Only the reason can be an empty token. -/
theorem text_ne_empty (h : FieldTokens cs field ts) {i : Nat} (hi : i + field.index < 3) {t : Token}
    (ht : ts[i]? = some t) : t.text ≠ "" := by
  induction h generalizing i with
  | none => simp at ht
  | last _ htext =>
    rw [List.mem_singleton.1 (List.mem_of_getElem? ht)]
    exact htext
  | next _ htext hnext _ ih =>
    have hindex := Field.index_of_next? hnext
    cases i with
    | zero =>
      rw [List.getElem?_cons_zero, Option.some_inj] at ht
      exact ht ▸ htext
    | succ i =>
      rw [List.getElem?_cons_succ] at ht
      exact ih (by omega) ht
  | closed => exact absurd hi (by simp [Field.index])

end FieldTokens

/-! ### The tokens of a line -/

theorem fieldTokens_lineTokens (line : Nat) (cs : List Char) :
    FieldTokens cs .verb (lineTokens line cs) :=
  fieldTokens_tokensFrom (.fresh []) List.not_mem_nil cs

/-- Every token stands on its line, before the comment. -/
theorem standsOn_of_mem_lineTokens {line : Nat} {cs : List Char} {t : Token}
    (h : t ∈ lineTokens line cs) : t.StandsOn cs :=
  (fieldTokens_lineTokens line cs).standsOn t h

/-- A line has at most four tokens. -/
theorem length_lineTokens_le (line : Nat) (cs : List Char) : (lineTokens line cs).length ≤ 4 :=
  (fieldTokens_lineTokens line cs).length_add_index_le

theorem text_ne_empty_of_lineTokens {line i : Nat} {cs : List Char} {t : Token}
    (h : (lineTokens line cs)[i]? = some t) (hi : i < 3) : t.text ≠ "" :=
  (fieldTokens_lineTokens line cs).text_ne_empty hi h

end EditList
