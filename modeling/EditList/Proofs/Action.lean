import EditList.Action
import EditList.Proofs.Time

/-!
# Reading actions

`ofLine_eq_ok_iff` says when the tokens of a line give an action, and which.  They are read one after
the other: the verb, the start, the stop, the reason, and no fifth token.  `FaultAt` says which fault a
token has in its place, and `outcome_ofLine` that tokens without faults give an action and others the
first of their faults.

A time that a line does not give is zero, which a blank text gives as well, so both times of an action
that was read come from texts (`parsed_of_ofTokens`).

Tokens on different lines have nothing to do with each other: what is read from one stretch of lines and
another is read from each of them (`ofTokens_append`).
-/

namespace EditList

/-! ### Runs of tokens -/

theorem exists_lineGroups_cons (t : Token) (ts : List Token) :
    ∃ others groups, lineGroups (t :: ts) = (t, others) :: groups := by
  rw [lineGroups]
  split
  · exact ⟨_, _, rfl⟩
  · split
    · exact ⟨_, _, rfl⟩
    · exact ⟨_, _, rfl⟩

theorem lineGroups_line {t : Token} {ts : List Token} (hts : ∀ u ∈ ts, u.line = t.line) :
    lineGroups (t :: ts) = [(t, ts)] := by
  induction ts generalizing t with
  | nil => rfl
  | cons u ts ih =>
    rw [List.forall_mem_cons] at hts
    have hrest : lineGroups (u :: ts) = [(u, ts)] := by
      apply ih
      intro v hv
      rw [hts.1, hts.2 v hv]
    rw [lineGroups, hrest]
    exact if_pos hts.1.symm

/-- Tokens that stand on different lines are in different runs. -/
theorem lineGroups_append {ts us : List Token} (h : ∀ t ∈ ts, ∀ u ∈ us, t.line ≠ u.line) :
    lineGroups (ts ++ us) = lineGroups ts ++ lineGroups us := by
  induction ts with
  | nil => rfl
  | cons t ts ih =>
    rw [List.forall_mem_cons] at h
    have hrest := ih h.2
    -- `t` looks only at the token after it, which is in `ts` or, if there is none, in `us`
    cases ts with
    | nil =>
      cases us with
      | nil => rfl
      | cons u us =>
        obtain ⟨others, groups, hgroups⟩ := exists_lineGroups_cons u us
        rw [List.singleton_append, lineGroups, hgroups]
        exact if_neg (h.1 u List.mem_cons_self)
    | cons t' ts =>
      obtain ⟨others, groups, hgroups⟩ := exists_lineGroups_cons t' ts
      rw [hgroups] at hrest
      rw [List.cons_append, lineGroups, hrest, lineGroups, hgroups, List.cons_append]
      by_cases hline : t.line = t'.line
      · simp only [if_pos hline, List.cons_append]
      · simp only [if_neg hline, List.cons_append]

/-! ### Actions -/

/-- Both times of an action were read from texts. -/
def Action.Parsed (a : Action) : Prop :=
  a.start.Parsed ∧ a.stop.Parsed

namespace Action

theorem refuseSurplus_eq_ok_iff {t? : Option Token} : refuseSurplus t? = .ok () ↔ t? = none := by
  cases t? <;> simp [refuseSurplus]

/-- The first token of a line is read as the verb that it names. -/
theorem readVerb_eq_ok_iff {t : Token} {verb : Verb} :
    readVerb t = .ok verb ↔ Verb.ofName? t.text = some verb := by
  cases hname : Verb.ofName? t.text with
  | some named => simp [readVerb, hname]
  | none => simp [readVerb, hname]

/-- A token in the place of a time is read as the time that it spells, on either bound. -/
theorem readTime_some_eq_ok_iff {bound : Bound} {t : Token} {time : Time} :
    readTime bound (some t) = .ok time ↔ Time.parse t.text = .ok time := by
  cases hparse : Time.parse t.text with
  | ok parsed => simp [readTime, hparse]
  | error cause => simp [readTime, hparse]

/-- A token in the place of the reason is read as the reason that it spells. -/
theorem readReason_some_eq_ok_iff {t : Token} {reason : Reason} :
    readReason (some t) = .ok reason ↔ Reason.parse t.text = .ok reason := by
  cases hparse : Reason.parse t.text with
  | ok parsed => simp [readReason, hparse]
  | error cause => simp [readReason, hparse]

/-- A line is read as an action exactly when each of its places is read and there is no fifth token. -/
theorem ofLine_eq_ok_iff {first : Token} {others : List Token} {a : Action} :
    ofLine first others = .ok a ↔
      ∃ verb start stop reason, readVerb first = .ok verb ∧ readTime .start others[0]? = .ok start ∧
        readTime .stop others[1]? = .ok stop ∧ readReason others[2]? = .ok reason ∧
        others[3]? = none ∧ a = ⟨first.line, verb, start, stop, reason, first :: others⟩ := by
  unfold ofLine
  constructor
  · intro h
    obtain ⟨verb, hverb, h⟩ := bind_eq_ok.1 h
    obtain ⟨start, hstart, h⟩ := bind_eq_ok.1 h
    obtain ⟨stop, hstop, h⟩ := bind_eq_ok.1 h
    obtain ⟨reason, hreason, h⟩ := bind_eq_ok.1 h
    obtain ⟨⟨⟩, hsurplus, h⟩ := bind_eq_ok.1 h
    exact ⟨verb, start, stop, reason, hverb, hstart, hstop, hreason,
      refuseSurplus_eq_ok_iff.1 hsurplus, (Except.ok.inj h).symm⟩
  · rintro ⟨verb, start, stop, reason, hverb, hstart, hstop, hreason, hsurplus, rfl⟩
    rw [hverb, hstart, hstop, hreason, refuseSurplus_eq_ok_iff.2 hsurplus]
    rfl

theorem readVerb_eq_error_iff {t : Token} {fault : Fault} :
    readVerb t = .error fault ↔
      Verb.ofName? t.text = none ∧ fault = .unknownVerb t.position t.text := by
  unfold readVerb
  cases Verb.ofName? t.text with
  | some verb => exact iff_of_false nofun nofun
  | none => exact ⟨fun h => ⟨rfl, (Except.error.inj h).symm⟩, fun h => h.2 ▸ rfl⟩

theorem readTime_eq_error_iff {bound : Bound} {t? : Option Token} {fault : Fault} :
    readTime bound t? = .error fault ↔
      ∃ t cause, t? = some t ∧ Time.parse t.text = .error cause ∧
        fault = .badTime t.position bound cause := by
  cases t? with
  | none => exact iff_of_false nofun nofun
  | some t =>
    simp only [readTime]
    constructor
    · intro h
      split at h
      · cases h
      · next cause hcause => exact ⟨t, cause, rfl, hcause, (Except.error.inj h).symm⟩
    · rintro ⟨_, cause, ⟨⟩, hcause, rfl⟩
      rw [hcause]

theorem readReason_eq_error_iff {t? : Option Token} {fault : Fault} :
    readReason t? = .error fault ↔
      ∃ t cause, t? = some t ∧ Reason.parse t.text = .error cause ∧
        fault = .badReason t.position cause := by
  cases t? with
  | none => exact iff_of_false nofun nofun
  | some t =>
    simp only [readReason]
    constructor
    · intro h
      split at h
      · cases h
      · next cause hcause => exact ⟨t, cause, rfl, hcause, (Except.error.inj h).symm⟩
    · rintro ⟨_, cause, ⟨⟩, hcause, rfl⟩
      rw [hcause]

theorem refuseSurplus_eq_error_iff {t? : Option Token} {fault : Fault} :
    refuseSurplus t? = .error fault ↔ ∃ t, t? = some t ∧ fault = .surplusToken t.position 4 := by
  cases t? with
  | none => exact iff_of_false nofun nofun
  | some t =>
    constructor
    · intro h
      exact ⟨t, rfl, (Except.error.inj h).symm⟩
    · rintro ⟨_, ⟨⟩, rfl⟩
      rfl

end Action

/-! ### Faults by place -/

/-- The faults that a token can have, by its place in a run. -/
inductive FaultAt : ℕ → Token → Fault → Prop
  | verb {t : Token} (h : Verb.ofName? t.text = none) :
    FaultAt 0 t (.unknownVerb t.position t.text)
  | start {t : Token} {cause : Time.Error} (h : Time.parse t.text = .error cause) :
    FaultAt 1 t (.badTime t.position .start cause)
  | stop {t : Token} {cause : Time.Error} (h : Time.parse t.text = .error cause) :
    FaultAt 2 t (.badTime t.position .stop cause)
  | reason {t : Token} {cause : Reason.Error} (h : Reason.parse t.text = .error cause) :
    FaultAt 3 t (.badReason t.position cause)
  /-- There is a fifth token. -/
  | surplus {t : Token} : FaultAt 4 t (.surplusToken t.position 4)

/-- Whether no token of a run before the place `i` has a fault. -/
def ClearBefore (run : List Token) (i : ℕ) : Prop :=
  ∀ j < i, ∀ t, run[j]? = some t → ∀ fault, ¬ FaultAt j t fault

/-- Whether no token of a run has a fault. -/
def IsFaultless (run : List Token) : Prop :=
  ∀ i, ClearBefore run i

/-- The fault of a token in a run in which no token before it has one. -/
def FirstFault (run : List Token) (t : Token) (fault : Fault) : Prop :=
  ∃ i, run[i]? = some t ∧ FaultAt i t fault ∧ ClearBefore run i

variable {t : Token} {run : List Token} {fault : Fault} {i : ℕ}

/-- A fault carries the line and the column of the token that has it. -/
theorem FaultAt.position_eq (h : FaultAt i t fault) :
    fault.line? = some t.line ∧ fault.column? = some t.column := by
  cases h <;> exact ⟨rfl, rfl⟩

theorem FaultAt.lt (h : FaultAt i t fault) : i < 5 := by
  cases h <;> decide

/-- The place of a token decides what can be wrong with it, so it has one fault at most. -/
theorem FaultAt.unique {fault' : Fault} (h : FaultAt i t fault) (h' : FaultAt i t fault') :
    fault = fault' := by
  cases h with
  | verb => cases h'; rfl
  | start h =>
    cases h' with
    | start h' => rw [Except.error.inj (h.symm.trans h')]
  | stop h =>
    cases h' with
    | stop h' => rw [Except.error.inj (h.symm.trans h')]
  | reason h =>
    cases h' with
    | reason h' => rw [Except.error.inj (h.symm.trans h')]
  | surplus => cases h'; rfl

theorem ClearBefore.succ (h : ClearBefore run i)
    (hi : ∀ t, run[i]? = some t → ∀ fault, ¬ FaultAt i t fault) : ClearBefore run (i + 1) := by
  intro j hj
  rcases Nat.lt_succ_iff_lt_or_eq.1 hj with hlt | rfl
  · exact h j hlt
  · exact hi

/-- From the sixth token on nothing is looked at: the fifth is a fault already. -/
theorem isFaultless_of_clearBefore (h : ClearBefore run 5) : IsFaultless run := by
  intro i j _ t ht fault hfault
  exact h j hfault.lt t ht fault hfault

theorem FirstFault.position_eq (h : FirstFault run t fault) :
    fault.line? = some t.line ∧ fault.column? = some t.column := by
  obtain ⟨i, -, hfault, -⟩ := h
  exact hfault.position_eq

theorem FirstFault.not_isFaultless (h : FirstFault run t fault) : ¬ IsFaultless run := by
  obtain ⟨i, ht, hfault, -⟩ := h
  intro hclear
  exact hclear (i + 1) i (Nat.lt_succ_self i) t ht fault hfault

/-- Of two first faults neither can come before the other, so they are one. -/
theorem FirstFault.unique {t' : Token} {fault' : Fault} (h : FirstFault run t fault)
    (h' : FirstFault run t' fault') : fault = fault' := by
  obtain ⟨i, ht, hfault, hclear⟩ := h
  obtain ⟨i', ht', hfault', hclear'⟩ := h'
  rcases Nat.lt_trichotomy i i' with hlt | rfl | hlt
  · exact absurd hfault (hclear' i hlt t ht fault)
  · obtain rfl := Option.some.inj (ht.symm.trans ht')
    exact hfault.unique hfault'
  · exact absurd hfault' (hclear i' hlt t' ht' fault')

/-! ### Reading a run -/

/-- Whether a reader fails exactly with the faults of the token in the place `i` of a run. -/
def ReadsPlace {α : Type} (run : List Token) (i : ℕ) (x : Except Fault α) : Prop :=
  ∀ fault, x = .error fault ↔ ∃ t, run[i]? = some t ∧ FaultAt i t fault

/-- One more place is clear, or it has the first fault. -/
theorem ReadsPlace.outcome {α : Type} {x : Except Fault α} (h : ReadsPlace run i x)
    (hclear : ClearBefore run i) :
    (∃ a, x = .ok a ∧ ClearBefore run (i + 1)) ∨
      ∃ t fault, x = .error fault ∧ FirstFault run t fault := by
  cases x with
  | error fault =>
    obtain ⟨t, ht, hfault⟩ := (h fault).1 rfl
    exact .inr ⟨t, fault, rfl, i, ht, hfault, hclear⟩
  | ok a =>
    refine .inl ⟨a, rfl, hclear.succ ?_⟩
    intro t ht fault hfault
    cases (h fault).2 ⟨t, ht, hfault⟩

namespace Action

variable {first : Token} {others : List Token}

theorem readsPlace_verb : ReadsPlace (first :: others) 0 (readVerb first) := by
  intro fault
  rw [readVerb_eq_error_iff]
  constructor
  · rintro ⟨hname, rfl⟩
    exact ⟨first, rfl, .verb hname⟩
  · rintro ⟨t, ⟨⟩, ⟨hname⟩⟩
    exact ⟨hname, rfl⟩

theorem readsPlace_start : ReadsPlace (first :: others) 1 (readTime .start others[0]?) := by
  intro fault
  rw [readTime_eq_error_iff]
  constructor
  · rintro ⟨t, cause, ht, hcause, rfl⟩
    exact ⟨t, ht, .start hcause⟩
  · rintro ⟨t, ht, hfault⟩
    cases hfault with
    | start hcause => exact ⟨t, _, ht, hcause, rfl⟩

theorem readsPlace_stop : ReadsPlace (first :: others) 2 (readTime .stop others[1]?) := by
  intro fault
  rw [readTime_eq_error_iff]
  constructor
  · rintro ⟨t, cause, ht, hcause, rfl⟩
    exact ⟨t, ht, .stop hcause⟩
  · rintro ⟨t, ht, hfault⟩
    cases hfault with
    | stop hcause => exact ⟨t, _, ht, hcause, rfl⟩

theorem readsPlace_reason : ReadsPlace (first :: others) 3 (readReason others[2]?) := by
  intro fault
  rw [readReason_eq_error_iff]
  constructor
  · rintro ⟨t, cause, ht, hcause, rfl⟩
    exact ⟨t, ht, .reason hcause⟩
  · rintro ⟨t, ht, hfault⟩
    cases hfault with
    | reason hcause => exact ⟨t, _, ht, hcause, rfl⟩

theorem readsPlace_surplus : ReadsPlace (first :: others) 4 (refuseSurplus others[3]?) := by
  intro fault
  rw [refuseSurplus_eq_error_iff]
  constructor
  · rintro ⟨t, ht, rfl⟩
    exact ⟨t, ht, .surplus⟩
  · rintro ⟨t, ht, ⟨⟩⟩
    exact ⟨t, ht, rfl⟩

/-- A line gives an action, and then its tokens have no fault, or it gives the first of their faults. -/
theorem outcome_ofLine (first : Token) (others : List Token) :
    (∃ a, ofLine first others = .ok a ∧ IsFaultless (first :: others)) ∨
      ∃ t fault, ofLine first others = .error fault ∧ FirstFault (first :: others) t fault := by
  -- from left to right: a place that is read leaves the next one as the first that can be at fault
  have hclear : ClearBefore (first :: others) 0 := nofun
  unfold ofLine
  rcases readsPlace_verb.outcome hclear with ⟨verb, hverb, hclear⟩ | ⟨t, fault, hverb, hfault⟩
  · rcases readsPlace_start.outcome hclear with ⟨start, hstart, hclear⟩ | ⟨t, fault, hstart, hfault⟩
    · rcases readsPlace_stop.outcome hclear with ⟨stop, hstop, hclear⟩ | ⟨t, fault, hstop, hfault⟩
      · rcases readsPlace_reason.outcome hclear with
          ⟨reason, hreason, hclear⟩ | ⟨t, fault, hreason, hfault⟩
        · rcases readsPlace_surplus.outcome hclear with
            ⟨⟨⟩, hsurplus, hclear⟩ | ⟨t, fault, hsurplus, hfault⟩
          · rw [hverb, hstart, hstop, hreason, hsurplus]
            exact .inl ⟨_, rfl, isFaultless_of_clearBefore hclear⟩
          · rw [hverb, hstart, hstop, hreason, hsurplus]
            exact .inr ⟨t, fault, rfl, hfault⟩
        · rw [hverb, hstart, hstop, hreason]
          exact .inr ⟨t, fault, rfl, hfault⟩
      · rw [hverb, hstart, hstop]
        exact .inr ⟨t, fault, rfl, hfault⟩
    · rw [hverb, hstart]
      exact .inr ⟨t, fault, rfl, hfault⟩
  · rw [hverb]
    exact .inr ⟨t, fault, rfl, hfault⟩

/-- A line gives an action exactly when none of its tokens has a fault. -/
theorem exists_ofLine_eq_ok_iff :
    (∃ a, ofLine first others = .ok a) ↔ IsFaultless (first :: others) := by
  rcases outcome_ofLine first others with ⟨a, hok, hclear⟩ | ⟨t, fault, herror, hfault⟩
  · exact iff_of_true ⟨a, hok⟩ hclear
  · refine iff_of_false ?_ hfault.not_isFaultless
    rintro ⟨a, hok⟩
    rw [herror] at hok
    cases hok

/-- A line that gives no action gives the first fault of its tokens, from left to right. -/
theorem ofLine_eq_error_iff {fault : Fault} :
    ofLine first others = .error fault ↔ ∃ t, FirstFault (first :: others) t fault := by
  rcases outcome_ofLine first others with ⟨a, hok, hclear⟩ | ⟨t, fault', herror, hfault⟩
  · rw [hok]
    refine iff_of_false nofun ?_
    rintro ⟨t, hfault⟩
    exact hfault.not_isFaultless hclear
  · rw [herror]
    constructor
    · intro heq
      obtain rfl := Except.error.inj heq
      exact ⟨t, hfault⟩
    · rintro ⟨t', hfault'⟩
      rw [hfault.unique hfault']

/-! ### Reading all lines -/

theorem ofTokens_line {t : Token} {ts : List Token} (hts : ∀ u ∈ ts, u.line = t.line) :
    ofTokens (t :: ts) = (ofLine t ts).map fun a => [a] := by
  rw [ofTokens, lineGroups_line hts, List.mapM_cons, List.mapM_nil]
  cases hline : ofLine t ts with
  | error fault => simp only [hline]; rfl
  | ok a => simp only [hline]; rfl

/-- Runs that share no line are read one after the other. -/
theorem ofTokens_append {ts us : List Token} (h : ∀ t ∈ ts, ∀ u ∈ us, t.line ≠ u.line) :
    ofTokens (ts ++ us) = (do
      let as ← ofTokens ts
      let bs ← ofTokens us
      return as ++ bs) := by
  rw [ofTokens, lineGroups_append h, List.mapM_append]
  rfl

theorem ofTokens_append_eq_ok_iff {ts us : List Token} {actions : List Action}
    (h : ∀ t ∈ ts, ∀ u ∈ us, t.line ≠ u.line) :
    ofTokens (ts ++ us) = .ok actions ↔
      ∃ as bs, ofTokens ts = .ok as ∧ ofTokens us = .ok bs ∧ actions = as ++ bs := by
  rw [ofTokens_append h]
  constructor
  · intro hok
    obtain ⟨as, has, hok⟩ := bind_eq_ok.1 hok
    obtain ⟨bs, hbs, hok⟩ := bind_eq_ok.1 hok
    exact ⟨as, bs, has, hbs, (Except.ok.inj hok).symm⟩
  · rintro ⟨as, bs, has, hbs, rfl⟩
    rw [has, hbs]
    rfl

/-- The first run that fails decides the fault. -/
theorem ofTokens_append_eq_error_iff {ts us : List Token} {fault : Fault}
    (h : ∀ t ∈ ts, ∀ u ∈ us, t.line ≠ u.line) :
    ofTokens (ts ++ us) = .error fault ↔
      ofTokens ts = .error fault ∨ ∃ as, ofTokens ts = .ok as ∧ ofTokens us = .error fault := by
  rw [ofTokens_append h, bind_eq_error]
  refine or_congr_right (exists_congr fun as => and_congr_right fun _ => ?_)
  cases ofTokens us with
  | error e => exact Iff.rfl
  | ok bs => exact iff_of_false nofun nofun

/-- A line that can be read puts its action in front of those of the lines after it. -/
theorem ofTokens_line_append {t : Token} {ts us : List Token} {a : Action} {actions : List Action}
    (hts : ∀ u ∈ ts, u.line = t.line) (hus : ∀ u ∈ us, u.line ≠ t.line)
    (hline : ofLine t ts = .ok a) (hrest : ofTokens us = .ok actions) :
    ofTokens (t :: (ts ++ us)) = .ok (a :: actions) := by
  have happart : ∀ v ∈ t :: ts, ∀ u ∈ us, v.line ≠ u.line := by
    rw [List.forall_mem_cons]
    refine ⟨fun u hu => Ne.symm (hus u hu), fun v hv u hu => ?_⟩
    rw [hts v hv]
    exact Ne.symm (hus u hu)
  rw [← List.cons_append, ofTokens_append_eq_ok_iff happart]
  refine ⟨[a], actions, ?_, hrest, rfl⟩
  rw [ofTokens_line hts, hline]
  rfl

/-- A time that a line does not give is zero, which is also what an empty text spells. -/
theorem parsed_of_readTime {bound : Bound} {t? : Option Token} {t : Time}
    (h : readTime bound t? = .ok t) : t.Parsed := by
  unfold readTime at h
  cases t? with
  | none =>
    obtain rfl := Except.ok.inj h
    exact ⟨"", rfl⟩
  | some token =>
    cases htime : Time.parse token.text with
    | error cause => simp [htime] at h
    | ok time =>
      simp only [htime, Except.ok.injEq] at h
      exact ⟨token.text, h ▸ htime⟩

/-- All that is later said of times rests on this: the bounds of every action were read from texts. -/
theorem parsed_of_ofTokens {tokens : List Token} {actions : List Action}
    (h : ofTokens tokens = .ok actions) : ∀ a ∈ actions, a.Parsed := by
  intro a ha
  obtain ⟨⟨first, others⟩, -, hline⟩ := exists_of_mem_mapM h ha
  obtain ⟨verb, start, stop, reason, -, hstart, hstop, -, -, rfl⟩ := ofLine_eq_ok_iff.1 hline
  exact ⟨parsed_of_readTime hstart, parsed_of_readTime hstop⟩

end Action

end EditList
