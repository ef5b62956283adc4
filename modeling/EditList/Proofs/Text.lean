import EditList.Text

/-!
# Trimming and splitting

Trimming takes blanks off the two ends of a text and nothing else (`exists_eq_append_trim`).  So it
does not see blanks that are put there, leaves a text without them as it is, and keeps every character
that is not blank.  What is left neither starts nor ends with a blank (`not_isBlank_head_trim`,
`not_isBlank_getLast_trimEnd`).  A character that is not blank parts the two ends from each other
(`trim_append_cons`).
-/

namespace EditList.Text

/-- A text of blanks only. -/
def IsBlankRun (cs : List Char) : Prop :=
  ∀ c ∈ cs, isBlank c = true

instance (cs : List Char) : Decidable (IsBlankRun cs) :=
  List.decidableBAll _ cs

variable {cs bs : List Char} {c : Char}

theorem isBlankRun_cons : IsBlankRun (c :: cs) ↔ isBlank c = true ∧ IsBlankRun cs :=
  List.forall_mem_cons

theorem isBlankRun_append : IsBlankRun (cs ++ bs) ↔ IsBlankRun cs ∧ IsBlankRun bs :=
  List.forall_mem_append

theorem isBlankRun_return : IsBlankRun ['\r'] := by
  decide

theorem IsBlankRun.reverse (h : IsBlankRun bs) : IsBlankRun bs.reverse := by
  intro c hc
  exact h c (List.mem_reverse.1 hc)

theorem IsBlankRun.not_mem (h : IsBlankRun bs) (hc : isBlank c = false) : c ∉ bs := by
  intro hmem
  simp [h c hmem] at hc

theorem isBlankRun_takeWhile (cs : List Char) : IsBlankRun (cs.takeWhile isBlank) :=
  List.all_eq_true.1 List.all_takeWhile

/-! ### The blanks at the end -/

theorem trimEnd_append (h : IsBlankRun bs) : trimEnd (cs ++ bs) = trimEnd cs := by
  unfold trimEnd
  rw [List.reverse_append, List.dropWhile_append_of_pos h.reverse]

theorem trimEnd_eq_self (h : ∀ c ∈ cs.getLast?, isBlank c = false) : trimEnd cs = cs := by
  unfold trimEnd
  rw [← List.head?_reverse] at h
  cases hrev : cs.reverse with
  | nil => simpa using hrev.symm
  | cons c ds =>
    rw [List.dropWhile_cons_of_neg (by simp [h c (by simp [hrev])]), ← hrev, List.reverse_reverse]

theorem exists_eq_append_trimEnd (cs : List Char) :
    ∃ bs, IsBlankRun bs ∧ cs = trimEnd cs ++ bs := by
  refine ⟨(cs.reverse.takeWhile isBlank).reverse, (isBlankRun_takeWhile _).reverse, ?_⟩
  unfold trimEnd
  rw [← List.reverse_append, List.takeWhile_append_dropWhile, List.reverse_reverse]

theorem length_trimEnd_le (cs : List Char) : (trimEnd cs).length ≤ cs.length := by
  obtain ⟨bs, -, hsplit⟩ := exists_eq_append_trimEnd cs
  have hlength := congrArg List.length hsplit
  rw [List.length_append] at hlength
  omega

theorem not_isBlank_head_dropWhile (cs : List Char) :
    ∀ c ∈ (cs.dropWhile isBlank).head?, isBlank c = false := by
  intro c hc
  simpa [Option.mem_def.1 hc] using List.head?_dropWhile_not isBlank cs

/-- All blanks at the end are taken off. -/
theorem not_isBlank_getLast_trimEnd (cs : List Char) :
    ∀ c ∈ (trimEnd cs).getLast?, isBlank c = false := by
  rw [trimEnd, List.getLast?_reverse]
  exact not_isBlank_head_dropWhile _

theorem mem_of_mem_trimEnd (h : c ∈ trimEnd cs) : c ∈ cs := by
  obtain ⟨bs, -, hsplit⟩ := exists_eq_append_trimEnd cs
  rw [hsplit]
  exact List.mem_append_left bs h

theorem not_isBlank_getLast_append_cons (hc : isBlank c = false) (cs : List Char)
    (hbs : ∀ b ∈ bs.getLast?, isBlank b = false) :
    ∀ d ∈ (cs ++ c :: bs).getLast?, isBlank d = false := by
  intro d hd
  rw [List.getLast?_append, List.getLast?_cons, Option.some_or] at hd
  obtain rfl := Option.some.inj hd
  -- the last character is that of `bs`, or `c` if there is none
  cases hlast : bs.getLast? with
  | none => exact hc
  | some b => exact hbs b hlast

/-- Nothing is taken off in front of a character that is not blank. -/
theorem trimEnd_append_cons (hc : isBlank c = false) (cs ds : List Char) :
    trimEnd (cs ++ c :: ds) = cs ++ c :: trimEnd ds := by
  obtain ⟨bs, hbs, hsplit⟩ := exists_eq_append_trimEnd ds
  have hlast := not_isBlank_getLast_append_cons hc cs (not_isBlank_getLast_trimEnd ds)
  calc trimEnd (cs ++ c :: ds)
      = trimEnd (cs ++ c :: trimEnd ds ++ bs) := by
        rw [List.append_assoc, List.cons_append, ← hsplit]
    _ = cs ++ c :: trimEnd ds := by
        rw [trimEnd_append hbs, trimEnd_eq_self hlast]

/-! ### The blanks at both ends -/

theorem trim_append (h : IsBlankRun bs) : trim (cs ++ bs) = trim cs := by
  unfold trim
  rw [List.dropWhile_append]
  split
  · next hnil =>
    -- nothing but blanks: both texts trim to the empty one
    rw [List.isEmpty_iff.1 hnil, ← List.append_nil bs, List.dropWhile_append_of_pos h]
    rfl
  · exact trimEnd_append h

theorem trim_append_left (h : IsBlankRun bs) : trim (bs ++ cs) = trim cs := by
  unfold trim
  rw [List.dropWhile_append_of_pos h]

theorem trim_eq_self (hhead : ∀ c ∈ cs.head?, isBlank c = false)
    (hlast : ∀ c ∈ cs.getLast?, isBlank c = false) : trim cs = cs := by
  unfold trim
  have hdrop : cs.dropWhile isBlank = cs := by
    cases cs with
    | nil => rfl
    | cons c ds => exact List.dropWhile_cons_of_neg (by simp [hhead c rfl])
  rw [hdrop, trimEnd_eq_self hlast]

/-- Only blanks are taken off, on either side. -/
theorem exists_eq_append_trim (cs : List Char) :
    ∃ as bs, IsBlankRun as ∧ IsBlankRun bs ∧ cs = as ++ (trim cs ++ bs) := by
  obtain ⟨bs, hbs, heq⟩ := exists_eq_append_trimEnd (cs.dropWhile isBlank)
  refine ⟨cs.takeWhile isBlank, bs, isBlankRun_takeWhile cs, hbs, ?_⟩
  unfold trim
  rw [← heq, List.takeWhile_append_dropWhile]

theorem trim_cons {c : Char} (hc : isBlank c = false) (ds : List Char) :
    trim (c :: ds) = trimEnd (c :: ds) := by
  rw [trim, List.dropWhile_cons_of_neg (by simp [hc])]

theorem not_isBlank_head_trim (cs : List Char) :
    ∀ c ∈ (trim cs).head?, isBlank c = false := by
  intro c hc
  obtain ⟨bs, -, hsplit⟩ := exists_eq_append_trimEnd (cs.dropWhile isBlank)
  apply not_isBlank_head_dropWhile cs
  rw [hsplit, List.head?_append]
  rw [trim] at hc
  rw [Option.mem_def.1 hc]
  rfl

/-- Around a character that is not blank, the two sides are trimmed each for itself. -/
theorem trim_append_cons (hc : isBlank c = false) (cs ds : List Char) :
    trim (cs ++ c :: ds) = cs.dropWhile isBlank ++ c :: trimEnd ds := by
  have hdrop : (c :: ds).dropWhile isBlank = c :: ds :=
    List.dropWhile_cons_of_neg (by simp [hc])
  rw [← trimEnd_append_cons hc, trim, List.dropWhile_append, hdrop]
  -- `c` is not dropped, even where nothing but blanks stands before it
  split
  · next hnil => rw [List.isEmpty_iff.1 hnil, List.nil_append]
  · rfl

theorem trim_dropWhile (cs : List Char) : trim (cs.dropWhile isBlank) = trim cs := by
  rw [← trim_append_left (isBlankRun_takeWhile cs), List.takeWhile_append_dropWhile]

theorem trim_trimEnd (cs : List Char) : trim (trimEnd cs) = trim cs := by
  obtain ⟨bs, hbs, hsplit⟩ := exists_eq_append_trimEnd cs
  rw [← trim_append hbs, ← hsplit]

theorem trim_trim (cs : List Char) : trim (trim cs) = trim cs := by
  obtain ⟨as, bs, has, hbs, heq⟩ := exists_eq_append_trim cs
  calc trim (trim cs) = trim (as ++ (trim cs ++ bs)) := by
        rw [trim_append_left has, trim_append hbs]
    _ = trim cs := by rw [← heq]

/-- Nothing is left exactly of blanks. -/
theorem trim_eq_nil_iff : trim cs = [] ↔ IsBlankRun cs := by
  obtain ⟨as, bs, has, hbs, heq⟩ := exists_eq_append_trim cs
  constructor
  · intro h
    rw [heq, h]
    exact isBlankRun_append.2 ⟨has, hbs⟩
  · intro h
    rw [← List.append_nil cs, trim_append_left h]
    rfl

theorem mem_of_mem_trim (h : c ∈ trim cs) : c ∈ cs := by
  obtain ⟨as, bs, -, -, heq⟩ := exists_eq_append_trim cs
  rw [heq]
  exact List.mem_append_right as (List.mem_append_left bs h)

/-- Characters that are not blank are all kept. -/
theorem count_trim (hc : isBlank c = false) (cs : List Char) : (trim cs).count c = cs.count c := by
  obtain ⟨as, bs, has, hbs, heq⟩ := exists_eq_append_trim cs
  have hnone : ∀ {ds : List Char}, IsBlankRun ds → ds.count c = 0 := by
    intro ds hds
    exact List.count_eq_zero.2 (hds.not_mem hc)
  calc (trim cs).count c = (as ++ (trim cs ++ bs)).count c := by
        rw [List.count_append, List.count_append, hnone has, hnone hbs, Nat.zero_add, Nat.add_zero]
    _ = cs.count c := by rw [← heq]

/-! ### Splitting -/

/-- Splitting at a character gives one piece more than the character occurs. -/
theorem length_splitOn (a : Char) (cs : List Char) :
    (cs.splitOn a).length = cs.count a + 1 := by
  induction cs with
  | nil => rfl
  | cons c cs ih =>
    rw [List.splitOn_cons_eq_if_modifyHead, List.count_cons]
    split
    · rw [List.length_cons, ih]
    · rw [List.length_modifyHead, ih, Nat.add_zero]

end EditList.Text
