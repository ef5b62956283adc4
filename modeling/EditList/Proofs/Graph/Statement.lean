import EditList.Graph
import Mathlib.Tactic.Common

/-!
# Statements

A statement of an expression names the labels that it reads, a filter, and the label that it writes.  The
labels stand in brackets and statements are separated by semicolons; as long as the parts themselves hold
none of these marks (`Unmarked`), the text of a statement tells its parts.

* `append_cons_inj`: a text is told apart from what follows by a separator that it does not hold.
* `Statement.eq_of_text_eq`: two statements with one text are the same.
-/

namespace EditList

/-! ### Marks -/

/-- Whether a text holds none of the characters that stand between the parts of an expression. -/
def Unmarked (s : String) : Prop :=
  ∀ c ∈ s.toList, c ∉ [';', '[', ']']

instance (s : String) : Decidable (Unmarked s) :=
  List.decidableBAll _ s.toList

theorem Unmarked.not_mem {s : String} (hs : Unmarked s) {c : Char} (hc : c ∈ [';', '[', ']']) :
    c ∉ s.toList := by
  intro hmem
  exact hs c hmem hc

theorem unmarked_append {s t : String} : Unmarked (s ++ t) ↔ Unmarked s ∧ Unmarked t := by
  rw [Unmarked, String.toList_append, List.forall_mem_append]
  rfl

/-- A text up to the first of its separators is determined by the whole. -/
theorem append_cons_inj {c : Char} {as bs cs ds : List Char} (has : c ∉ as) (hbs : c ∉ bs)
    (h : as ++ c :: cs = bs ++ c :: ds) : as = bs ∧ cs = ds := by
  -- the longer one of the two fronts would hold the separator of the other text
  rcases List.append_eq_append_iff.1 h with ⟨es, rfl, hes⟩ | ⟨es, rfl, hes⟩
  · cases es with
    | nil => exact ⟨(List.append_nil as).symm, (List.cons.inj hes).2⟩
    | cons e es =>
      obtain rfl := (List.cons.inj hes).1
      simp at hbs
  · cases es with
    | nil => exact ⟨List.append_nil bs, (List.cons.inj hes).2.symm⟩
    | cons e es =>
      obtain rfl := (List.cons.inj hes).1
      simp at has

/-! ### Statements -/

/-- A label in brackets. -/
def bracketed (label : String) : List Char :=
  '[' :: (label.toList ++ [']'])

/-- Labels in brackets are told apart from each other and from what follows them. -/
theorem flatMap_bracketed_inj {ls ms : List String} {cs ds : List Char}
    (hls : ∀ label ∈ ls, Unmarked label) (hms : ∀ label ∈ ms, Unmarked label)
    (hcs : cs.head? ≠ some '[') (hds : ds.head? ≠ some '[')
    (h : ls.flatMap bracketed ++ cs = ms.flatMap bracketed ++ ds) : ls = ms ∧ cs = ds := by
  induction ls generalizing ms with
  | nil =>
    cases ms with
    | nil => exact ⟨rfl, h⟩
    | cons m ms =>
      rw [List.flatMap_nil, List.nil_append] at h
      rw [h] at hcs
      exact absurd rfl hcs
  | cons l ls ih =>
    cases ms with
    | nil =>
      rw [List.flatMap_nil, List.nil_append] at h
      rw [← h] at hds
      exact absurd rfl hds
    | cons m ms =>
      rw [List.forall_mem_cons] at hls hms
      simp only [List.flatMap_cons, bracketed, List.cons_append, List.append_assoc,
        List.nil_append, List.cons.injEq, true_and] at h
      obtain ⟨hlabel, hrest⟩ :=
        append_cons_inj (hls.1.not_mem (by decide)) (hms.1.not_mem (by decide)) h
      obtain ⟨rfl, rfl⟩ := ih hls.2 hms.2 hrest
      exact ⟨by rw [String.toList_inj.1 hlabel], rfl⟩

/-- A statement of an expression. -/
@[ext]
structure Statement where
  /-- The labels that it reads. -/
  inputs : List String
  /-- What it does with them. -/
  filter : String
  /-- The label that it writes. -/
  output : String

namespace Statement

/-- The labels that are read, the filter, and the label that is written. -/
def text (s : Statement) : List Char :=
  s.inputs.flatMap bracketed ++ (s.filter.toList ++ bracketed s.output)

/-- Whether the marks in the text of a statement are only those around its parts. -/
structure IsPlain (s : Statement) : Prop where
  inputs : ∀ label ∈ s.inputs, Unmarked label
  filter : Unmarked s.filter
  filter_ne : s.filter ≠ ""
  output : Unmarked s.output

variable {s t : Statement}

/-- A filter does not look like one more input. -/
theorem IsPlain.head?_filter (hs : s.IsPlain) (cs : List Char) :
    (s.filter.toList ++ cs).head? ≠ some '[' := by
  cases hlist : s.filter.toList with
  | nil => exact absurd (String.toList_eq_nil_iff.1 hlist) hs.filter_ne
  | cons c rest =>
    intro hhead
    have hmem : '[' ∈ s.filter.toList := by
      rw [hlist, ← Option.some.inj hhead]
      exact List.mem_cons_self
    exact hs.filter.not_mem (by decide) hmem

/-- The text of a statement tells its parts. -/
theorem eq_of_text_eq (hs : s.IsPlain) (ht : t.IsPlain) (h : s.text = t.text) : s = t := by
  obtain ⟨hinputs, hrest⟩ :=
    flatMap_bracketed_inj hs.inputs ht.inputs (hs.head?_filter _) (ht.head?_filter _) h
  obtain ⟨hfilter, houtput⟩ :=
    append_cons_inj (hs.filter.not_mem (by decide)) (ht.filter.not_mem (by decide)) hrest
  rw [List.append_cancel_right_eq, String.toList_inj] at houtput
  exact Statement.ext hinputs (String.toList_inj.1 hfilter) houtput

end Statement

end EditList
