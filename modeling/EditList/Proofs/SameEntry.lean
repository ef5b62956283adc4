import EditList.Proofs.Job

/-!
# Jobs that write over their input

The check of a job compares the spellings of its two paths.  Different spellings can lead to one entry:
with and without a dot at the start, by way of `..`, from the root or from the working directory.  If
the output may be replaced, such a job is accepted, and the encoder is told to write over what it reads
(`check_misses_dot`).

`accepted_same_entry_iff` says of the accepted jobs which ones these are, in trees without links of any
kind, neither symbolic nor hard.  There are none among the jobs whose paths start alike and do not turn
back.
-/

namespace EditList

open Place Simulation

namespace FileTree

variable {t : FileTree} {path other : String}

/-- Two paths that lead to the same entry of a tree.  A file of a tree stands in one place only, so one
that has a second name through a hard link is not described. -/
def SameEntry (t : FileTree) (path other : String) : Prop :=
  ∃ place, t.locate path = .ok place ∧ t.locate other = .ok place ∧ place.found.isSome = true

/-- There are no links of any kind, so the names decide. -/
theorem sameEntry_iff : t.SameEntry path other ↔ t.contains path = true ∧ t.contains other = true ∧
    t.resolve (Path.ofString path) = t.resolve (Path.ofString other) := by
  constructor
  · rintro ⟨place, hpath, hother, hfound⟩
    obtain ⟨-, hnames⟩ := reached_of_locate hpath
    obtain ⟨-, hnames'⟩ := reached_of_locate hother
    exact ⟨contains_iff.2 ⟨place, hpath, hfound⟩, contains_iff.2 ⟨place, hother, hfound⟩,
      hnames.symm.trans hnames'⟩
  · rintro ⟨hpath, hother, heq⟩
    obtain ⟨place, hplace, hfound⟩ := contains_iff.1 hpath
    obtain ⟨place', hplace', -⟩ := contains_iff.1 hother
    obtain ⟨hreached, hnames⟩ := reached_of_locate hplace
    obtain ⟨hreached', hnames'⟩ := reached_of_locate hplace'
    have hsame : place'.names = place.names := by rw [hnames, hnames', heq]
    obtain rfl := hreached'.eq_of_names_eq hreached hsame
    exact ⟨place', hplace, hplace', hfound⟩

/-! ### Paths that do not turn back -/

/-- Without a turn back, following steps appends those that lead somewhere. -/
theorem foldl_follow_of_not_mem {steps : List String} (h : ".." ∉ steps) (names : List String) :
    steps.foldl follow names = names ++ steps.filter (!isIdle ·) := by
  induction steps generalizing names with
  | nil => simp
  | cons step steps ih =>
    rw [List.mem_cons, not_or] at h
    rw [List.foldl_cons, ih h.2, follow]
    by_cases hidle : isIdle step = true
    · simp [hidle]
    · simp [hidle, Ne.symm h.1]

/-- Paths that start alike and do not turn back have the same components if they lead to one place. -/
theorem components_eq_of_resolve_eq {p q : Path} (horigin : p.origin = q.origin)
    (hp : ".." ∉ p.steps) (hq : ".." ∉ q.steps) (h : t.resolve p = t.resolve q) :
    p.components = q.components := by
  have hp' : ".." ∉ p.steps.reverse := by simpa using hp
  have hq' : ".." ∉ q.steps.reverse := by simpa using hq
  rw [resolve, resolve, horigin, List.foldl_append, List.foldl_append, foldl_follow_of_not_mem hp',
    foldl_follow_of_not_mem hq', List.append_cancel_left_eq, List.filter_reverse,
    List.filter_reverse] at h
  rw [Path.components, Path.components, horigin, h]

end FileTree

/-! ### Accepted jobs -/

namespace Job

/-- What the check of a job makes sure of: the spellings differ, the input exists, and an output that
exists may be replaced. -/
theorem of_checkIn_eq_ok {job : Job} {t : FileTree} (h : job.checkIn t = .ok ()) :
    (Path.ofString job.input).components ≠ (Path.ofString job.output).components ∧
      t.contains job.input = true ∧ (t.contains job.output = true → job.overwrite = true) := by
  unfold checkIn at h
  split_ifs at h with hsame hblank hinput houtput
  refine ⟨hsame, by simpa using hinput, ?_⟩
  intro hcontains
  simpa [hcontains] using houtput

/-- In a tree without links of any kind, an accepted job reads and writes one entry exactly when it may
replace its output, the output exists and the two paths resolve to the same names.  It never does when
the paths start alike and do not turn back. -/
theorem accepted_same_entry_iff {programs : Programs} {job : Job} {w : World}
    (h : ((job.check : ExceptT Fault (Simulation programs) Unit).run.outcome w).1 = .ok ()) :
    (w.tree.SameEntry job.input job.output ↔
      job.overwrite = true ∧ w.tree.contains job.output = true ∧
        w.tree.resolve (Path.ofString job.input) = w.tree.resolve (Path.ofString job.output)) ∧
    ((Path.ofString job.input).origin = (Path.ofString job.output).origin →
      ".." ∉ (Path.ofString job.input).steps → ".." ∉ (Path.ofString job.output).steps →
        ¬ w.tree.SameEntry job.input job.output) := by
  rw [outcome_check] at h
  obtain ⟨hspelling, hinput, houtput⟩ := of_checkIn_eq_ok h
  rw [FileTree.sameEntry_iff]
  constructor
  · constructor
    · rintro ⟨-, hcontains, heq⟩
      exact ⟨houtput hcontains, hcontains, heq⟩
    · rintro ⟨-, hcontains, heq⟩
      exact ⟨hinput, hcontains, heq⟩
  · -- paths that start alike and lead to one place have the components that the check refuses
    rintro horigin hup hup' ⟨-, -, heq⟩
    exact hspelling (FileTree.components_eq_of_resolve_eq horigin hup hup' heq)

/-- Two files of one directory, the second to be replaced. -/
theorem accepted_same_entry_iff_siblings :
    let job := { Job.new "d//a" "d/./b" with overwrite := true }
    let w : World := ⟨⟨[("d", .directory [("a", .file .empty), ("b", .file .empty)])], []⟩, []⟩
    ((job.check : ExceptT Fault (Simulation StandIn.programs) Unit).run.outcome w).1 = .ok () ∧
      w.tree.contains job.output = true ∧ ¬ w.tree.SameEntry job.input job.output := by
  intro job w
  have hcheck : ((job.check : ExceptT Fault (Simulation StandIn.programs) Unit).run.outcome w).1 =
      .ok () := by decide +kernel
  refine ⟨hcheck, by decide +kernel, ?_⟩
  exact (accepted_same_entry_iff hcheck).2 (by decide +kernel) (by decide +kernel) (by decide +kernel)

/-- A job that reads a file and writes over it is accepted: only one of the paths starts with a dot. -/
theorem check_misses_dot :
    let job := { Job.new "./a" "a" with overwrite := true }
    let w : World := ⟨⟨[("a", .file "x".toUTF8)], []⟩, []⟩
    ((job.check : ExceptT Fault (Simulation StandIn.programs) Unit).run.outcome w).1 = .ok () ∧
      w.tree.SameEntry job.input job.output := by
  intro job w
  refine ⟨by decide +kernel, FileTree.sameEntry_iff.2 ⟨?_, ?_, ?_⟩⟩
  · decide +kernel
  · decide +kernel
  · decide +kernel

end Job

end EditList
