import EditList.Proofs.Text
import EditList.Reason

/-!
# Reading reasons

A reason can be read when it has at most one colon (`exists_parse_eq_ok_iff`), and blanks around it
do not count (`parse_trim`).

A text spells a reason when it is the category, or the category, a colon and the specifier, each with
blanks around it or none (`Spells`).  The parts themselves have no blanks around them and no colon
(`IsPart`), so nothing is left to choose: reading gives the reason that the text spells
(`parse_eq_ok_iff`), and fails only for a second colon (`exists_parse_eq_error_iff`).

What is read is therefore normal (`IsNormal`), and a normal reason is spelled by its own text
(`IsNormal.spells_text`), which holds no character that was not there before (`Spells.text_sublist`).
-/

namespace EditList.Reason

/-! ### Colons -/

/-- Blanks around a reason do not matter. -/
theorem parse_trim (cs : List Char) :
    parse (String.ofList (Text.trim cs)) = parse (String.ofList cs) := by
  simp only [parse, String.toList_ofList, Text.trim_trim]

/-- A reason is refused for its second colon and for nothing else. -/
theorem exists_parse_eq_ok_iff {text : String} :
    (∃ r, parse text = .ok r) ↔ text.toList.count ':' ≤ 1 := by
  have hcount : (Text.trim text.toList).count ':' = text.toList.count ':' :=
    Text.count_trim (by decide) _
  have hlength := Text.length_splitOn ':' (Text.trim text.toList)
  rw [← hcount]
  unfold parse
  cases hempty : (Text.trim text.toList).isEmpty with
  | true => simp [List.isEmpty_iff.1 hempty]
  | false =>
    -- the number of pieces decides between the branches of the match
    rw [if_neg (by simpa using hempty)]
    split
    · next heq => simp_all
    · next heq => simp_all
    · next h₁ h₂ =>
      match hpieces : (Text.trim text.toList).splitOn ':' with
      | [] => exact absurd hpieces (List.splitOn_ne_nil _ _)
      | [category] => exact absurd hpieces (h₁ category)
      | [category, specifier] => exact absurd hpieces (h₂ category specifier)
      | _ :: _ :: _ :: _ =>
        rw [hpieces] at hlength
        simp only [List.length_cons] at hlength
        simp
        omega

/-! ### Parts and spellings -/

/-- A text that can be a category or a specifier: no blanks around it, and no colon in it. -/
structure IsPart (part : String) : Prop where
  not_blank_first : ∀ c ∈ part.toList.head?, Text.isBlank c = false
  not_blank_last : ∀ c ∈ part.toList.getLast?, Text.isBlank c = false
  colon_not_mem : ':' ∉ part.toList

/-- A reason made of such parts. -/
structure IsNormal (r : Reason) : Prop where
  category : IsPart r.category
  specifier : ∀ part ∈ r.specifier, IsPart part

/-- A part with blanks around it. -/
def SpellsPart (cs : List Char) (part : String) : Prop :=
  IsPart part ∧ ∃ as bs, Text.IsBlankRun as ∧ Text.IsBlankRun bs ∧ cs = as ++ (part.toList ++ bs)

/-- The reason that a text spells. -/
inductive Spells : List Char → Reason → Prop
  | bare {cs : List Char} {category : String} (h : SpellsPart cs category) :
    Spells cs ⟨category, Option.none⟩
  | specified {cs ds : List Char} {category specifier : String} (hc : SpellsPart cs category)
    (hs : SpellsPart ds specifier) : Spells (cs ++ ':' :: ds) ⟨category, some specifier⟩

variable {cs ds : List Char} {part : String} {r : Reason}

theorem IsPart.trim_toList (h : IsPart part) : Text.trim part.toList = part.toList :=
  Text.trim_eq_self h.not_blank_first h.not_blank_last

theorem IsPart.spellsPart (h : IsPart part) : SpellsPart part.toList part :=
  ⟨h, [], [], List.forall_mem_nil _, List.forall_mem_nil _, (List.append_nil _).symm⟩

/-- Trimming finds the part that a text without a colon spells. -/
theorem spellsPart_iff :
    SpellsPart cs part ↔ ':' ∉ cs ∧ part = String.ofList (Text.trim cs) := by
  constructor
  · rintro ⟨hpart, as, bs, has, hbs, rfl⟩
    constructor
    · rw [List.mem_append, List.mem_append]
      rintro (hmem | hmem | hmem)
      · exact has.not_mem (by decide) hmem
      · exact hpart.colon_not_mem hmem
      · exact hbs.not_mem (by decide) hmem
    · rw [Text.trim_append_left has, Text.trim_append hbs, hpart.trim_toList, String.ofList_toList]
  · rintro ⟨hcolon, rfl⟩
    obtain ⟨as, bs, has, hbs, hsplit⟩ := Text.exists_eq_append_trim cs
    rw [SpellsPart, String.toList_ofList]
    refine ⟨⟨?_, ?_, ?_⟩, as, bs, has, hbs, hsplit⟩
    · rw [String.toList_ofList]
      exact Text.not_isBlank_head_trim cs
    · rw [String.toList_ofList]
      exact Text.not_isBlank_getLast_trimEnd _
    · rw [String.toList_ofList]
      exact fun hmem => hcolon (Text.mem_of_mem_trim hmem)

/-! ### Reading -/

/-- Without a colon the whole text is the title. -/
theorem parse_of_not_mem (hcs : ':' ∉ cs) :
    parse (String.ofList cs) = .ok ⟨String.ofList (Text.trim cs), Option.none⟩ := by
  have hcolon : ':' ∉ Text.trim cs := fun hmem => hcs (Text.mem_of_mem_trim hmem)
  rw [parse, String.toList_ofList, List.splitOn_eq_singleton hcolon]
  split
  · next hempty =>
    rw [List.isEmpty_iff.1 hempty]
    rfl
  · simp only [Text.trim_trim]

/-- The blanks at the ends of the text go first, and those around the colon with the two parts. -/
theorem parse_append_colon (hcs : ':' ∉ cs) (hds : ':' ∉ ds) :
    parse (String.ofList (cs ++ ':' :: ds)) =
      .ok ⟨String.ofList (Text.trim cs), some (String.ofList (Text.trim ds))⟩ := by
  have htrim : Text.trim (cs ++ ':' :: ds) = cs.dropWhile Text.isBlank ++ ':' :: Text.trimEnd ds :=
    Text.trim_append_cons (by decide) cs ds
  have hsplit : (cs.dropWhile Text.isBlank ++ ':' :: Text.trimEnd ds).splitOn ':' =
      [cs.dropWhile Text.isBlank, Text.trimEnd ds] := by
    rw [List.splitOn_append_cons_self_of_not_mem, List.splitOn_eq_singleton]
    · exact fun hmem => hds (Text.mem_of_mem_trimEnd hmem)
    · exact fun hmem => hcs ((List.dropWhile_suffix _).mem hmem)
  rw [parse, String.toList_ofList, htrim, hsplit]
  simp [Text.trim_dropWhile, Text.trim_trimEnd]

theorem parse_ofList_eq_ok_iff : parse (String.ofList cs) = .ok r ↔ Spells cs r := by
  constructor
  · intro h
    have hcount : (String.ofList cs).toList.count ':' ≤ 1 := exists_parse_eq_ok_iff.1 ⟨r, h⟩
    rw [String.toList_ofList] at hcount
    by_cases hmem : ':' ∈ cs
    · -- the first colon is the only one, so that no part holds another
      obtain ⟨before, after, rfl, hbefore⟩ := List.eq_append_cons_of_mem hmem
      have hafter : ':' ∉ after := by
        rw [← List.count_eq_zero]
        rw [List.count_append, List.count_cons_self] at hcount
        omega
      rw [parse_append_colon hbefore hafter] at h
      obtain rfl := Except.ok.inj h
      exact .specified (spellsPart_iff.2 ⟨hbefore, rfl⟩) (spellsPart_iff.2 ⟨hafter, rfl⟩)
    · rw [parse_of_not_mem hmem] at h
      obtain rfl := Except.ok.inj h
      exact .bare (spellsPart_iff.2 ⟨hmem, rfl⟩)
  · intro h
    cases h with
    | bare h =>
      obtain ⟨hcolon, rfl⟩ := spellsPart_iff.1 h
      exact parse_of_not_mem hcolon
    | specified hc hs =>
      obtain ⟨hcs, rfl⟩ := spellsPart_iff.1 hc
      obtain ⟨hds, rfl⟩ := spellsPart_iff.1 hs
      exact parse_append_colon hcs hds

theorem parse_eq_ok_iff {text : String} : parse text = .ok r ↔ Spells text.toList r := by
  rw [← parse_ofList_eq_ok_iff, String.ofList_toList]

/-- A text with two colons or more is no reason, and every other text is one. -/
theorem exists_parse_eq_error_iff {text : String} :
    (∃ e, parse text = .error e) ↔ 2 ≤ text.toList.count ':' := by
  have hok : (∃ r, parse text = .ok r) ↔ text.toList.count ':' ≤ 1 := exists_parse_eq_ok_iff
  cases hparse : parse text with
  | ok r =>
    have hle := hok.1 ⟨r, hparse⟩
    refine iff_of_false ?_ (by omega)
    rintro ⟨e, he⟩
    cases he
  | error e =>
    have hlt : ¬ text.toList.count ':' ≤ 1 := by
      intro hle
      obtain ⟨r, hr⟩ := hok.2 hle
      rw [hparse] at hr
      cases hr
    exact iff_of_true ⟨e, rfl⟩ (by omega)

/-! ### Normal reasons -/

theorem isNormal_none : none.IsNormal := by
  refine ⟨⟨?_, ?_, ?_⟩, ?_⟩ <;> simp [none]

/-- A reason that was read is in normal form. -/
theorem Spells.isNormal (h : Spells cs r) : r.IsNormal := by
  cases h with
  | bare h => exact ⟨h.1, by simp⟩
  | specified hc hs => exact ⟨hc.1, by simpa using hs.1⟩

/-- A reason in normal form is spelled by its own text. -/
theorem IsNormal.spells_text (h : r.IsNormal) : Spells r.text.toList r := by
  obtain ⟨category, specifier⟩ := r
  cases specifier with
  | none => exact .bare h.category.spellsPart
  | some specifier =>
    have htext : (Reason.text ⟨category, some specifier⟩).toList =
        category.toList ++ ':' :: specifier.toList := by
      simp [Reason.text]
    rw [htext]
    exact .specified h.category.spellsPart (h.specifier specifier rfl).spellsPart

theorem IsNormal.parse_text (h : r.IsNormal) : parse r.text = .ok r :=
  parse_eq_ok_iff.2 h.spells_text

theorem SpellsPart.sublist (h : SpellsPart cs part) : part.toList.Sublist cs := by
  obtain ⟨-, as, bs, -, -, rfl⟩ := h
  exact ((List.prefix_append _ bs).sublist).trans (List.sublist_append_right as _)

/-- Reading a reason drops characters and adds none. -/
theorem Spells.text_sublist (h : Spells cs r) : r.text.toList.Sublist cs := by
  cases h with
  | bare h => exact h.sublist
  | specified hc hs =>
    rw [Reason.text, String.toList_append, String.toList_append, List.append_assoc]
    exact hc.sublist.append (hs.sublist.cons_cons ':')

/-- Only blanks spell the empty reason. -/
theorem Spells.isEmpty_iff (h : Spells cs r) : r.isEmpty = true ↔ Text.IsBlankRun cs := by
  cases h with
  | bare h =>
    obtain ⟨-, rfl⟩ := spellsPart_iff.1 h
    simp [Reason.isEmpty, Text.trim_eq_nil_iff]
  | @specified cs ds =>
    have hcolon : ¬ Text.IsBlankRun (cs ++ ':' :: ds) :=
      fun hblank => hblank.not_mem (by decide) (List.mem_append_right cs List.mem_cons_self)
    simp [Reason.isEmpty, hcolon]

end EditList.Reason
