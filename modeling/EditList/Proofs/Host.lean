import EditList.Host
import EditList.Proofs.FileTree

/-!
# Runs on a simulated host

`Simulation.outcome` is what a run gives from a state of the host, and the state that it leaves.  The
lemmas about it follow a run from step to step.

`makesDirectories` says what making directories comes to: it starts no program, whatever it changes is a
new directory at one of the paths, and if it succeeds the first of them is a directory.
-/

namespace EditList

namespace Simulation

variable {programs : Programs} {α β ε : Type} {w : World} {path : String}

/-- What comes of a run from a state of the host, and the state that it leaves. -/
def outcome (x : Simulation programs α) (w : World) : α × World :=
  x w

@[simp]
theorem outcome_pure (a : α) (w : World) : (pure a : Simulation programs α).outcome w = (a, w) :=
  rfl

@[simp]
theorem outcome_bind (x : Simulation programs α) (f : α → Simulation programs β) (w : World) :
    (x >>= f).outcome w = (f (x.outcome w).1).outcome (x.outcome w).2 :=
  rfl

/-! ### Asking the host -/

@[simp]
theorem outcome_pathExists (path : String) (w : World) :
    (Host.pathExists path : Simulation programs Bool).outcome w = (w.tree.contains path, w) :=
  rfl

@[simp]
theorem outcome_isDirectory (path : String) (w : World) :
    (Host.isDirectory path : Simulation programs Bool).outcome w = (w.tree.isDirectory path, w) :=
  rfl

/-- A directory that cannot be made leaves the state as it is. -/
theorem outcome_makeDirectory (path : String) (w : World) :
    (Host.makeDirectory path : Simulation programs _).outcome w =
      match w.tree.makeDirectory path with
      | .ok tree => (.ok (), ⟨tree, w.launches⟩)
      | .error e => (.error e, w) :=
  rfl

/-- A program that starts changes the tree and is recorded; one that does not start leaves no trace. -/
theorem outcome_launch (program : String) (arguments : List String) (w : World) :
    (Host.launch program arguments : Simulation programs _).outcome w =
      match programs w.tree program arguments with
      | .ok (status, tree) => (.ok status, ⟨tree, ⟨program, arguments⟩ :: w.launches⟩)
      | .error e => (.error e, w) :=
  rfl

/-! ### Runs that can fail -/

@[simp]
theorem run_pure (a : α) (w : World) :
    (pure a : ExceptT ε (Simulation programs) α).run.outcome w = (.ok a, w) :=
  rfl

@[simp]
theorem run_throw (e : ε) (w : World) :
    (throw e : ExceptT ε (Simulation programs) α).run.outcome w = (.error e, w) :=
  rfl

@[simp]
theorem run_lift (x : Simulation programs α) (w : World) :
    (liftM x : ExceptT ε (Simulation programs) α).run.outcome w =
      (.ok (x.outcome w).1, (x.outcome w).2) :=
  rfl

/-- After a failure no step is taken. -/
theorem run_bind (x : ExceptT ε (Simulation programs) α) (f : α → ExceptT ε (Simulation programs) β)
    (w : World) : (x >>= f).run.outcome w =
      match x.run.outcome w with
      | (.ok a, w') => (f a).run.outcome w'
      | (.error e, w') => (.error e, w') := by
  show outcome (ExceptT.bindCont f (x.run.outcome w).1) (x.run.outcome w).2 = _
  rcases x.run.outcome w with ⟨result, w'⟩
  cases result <;> rfl

end Simulation

/-! ### Making directories -/

open FileTree Simulation

variable {programs : Programs}

/-- A directory that could not be made is no failure if there is one. -/
theorem outcome_settle_error (p : Path) (e : SystemError) (w : World) :
    (makeDirectories.settle p (.error e) : Simulation programs _).outcome w =
      (if w.tree.isDirectory p.text then .ok () else .error e, w) := by
  unfold makeDirectories.settle
  rw [outcome_bind, outcome_isDirectory]
  dsimp only
  split_ifs
  · exact outcome_pure _ w
  · exact outcome_pure _ w

/-- What making directories can do: to the state of the host, and as a result. -/
structure MakesDirectories (paths : List Path) (w : World) (outcome : Except SystemError Unit × World) :
    Prop where
  launches : outcome.2.launches = w.launches
  gains : GainsDirectories paths w.tree outcome.2.tree
  /-- After a success there is a directory at the first path. -/
  isDirectory : outcome.1 = .ok () → ∀ p, paths.head? = some p → p.text ≠ "" →
    outcome.2.tree.isDirectory p.text = true

theorem MakesDirectories.settled {paths : List Path} {p : Path} {w w' : World} {e : SystemError}
    (hlaunches : w'.launches = w.launches) (hgains : GainsDirectories paths w.tree w'.tree) :
    MakesDirectories (p :: paths) w
      ((makeDirectories.settle p (.error e) : Simulation programs _).outcome w') := by
  rw [outcome_settle_error]
  refine ⟨hlaunches, hgains.mono (List.subset_cons_self p paths), ?_⟩
  intro hok q hq _
  obtain rfl : p = q := Option.some.inj hq
  dsimp only at hok
  split_ifs at hok with hdirectory
  exact hdirectory

theorem MakesDirectories.made {paths : List Path} {p : Path} {w w' : World} {t : FileTree}
    (hlaunches : w'.launches = w.launches) (hgains : GainsDirectories paths w.tree w'.tree)
    (hmake : w'.tree.makeDirectory p.text = .ok t) :
    MakesDirectories (p :: paths) w (.ok (), ⟨t, w'.launches⟩) := by
  refine ⟨hlaunches, ?_, ?_⟩
  · have hstep : GainsDirectories (p :: paths) w'.tree t := .of_makeDirectory hmake List.mem_cons_self
    exact (hgains.mono (List.subset_cons_self p paths)).trans hstep
  · intro _ q hq _
    obtain rfl : p = q := Option.some.inj hq
    exact isDirectory_of_makeDirectory hmake

/-- Making directories starts no program and adds nothing but the directories that it is asked for,
whether it succeeds or not. -/
theorem makesDirectories (programs : Programs) (paths : List Path) (w : World) :
    MakesDirectories paths w ((makeDirectories paths : Simulation programs _).outcome w) := by
  induction paths with
  | nil => exact ⟨rfl, .refl _ _, nofun⟩
  | cons p above ih =>
    have hrefl : GainsDirectories above w.tree w.tree := .refl above w.tree
    by_cases htext : p.text = ""
    · rw [makeDirectories, if_pos htext]
      refine ⟨rfl, .refl _ _, fun _ q hq hne => ?_⟩
      obtain rfl : p = q := Option.some.inj hq
      exact absurd htext hne
    rw [makeDirectories, if_neg htext, outcome_bind, outcome_makeDirectory]
    cases hmake : w.tree.makeDirectory p.text with
    | ok t => exact .made rfl hrefl hmake
    | error e =>
      dsimp only
      split
      · next h => cases h
      · next h =>
        -- the directories above come first, and then this one is tried again
        rw [outcome_bind]
        generalize (makeDirectories above : Simulation programs _).outcome w = outcome at ih ⊢
        obtain ⟨result, w'⟩ := outcome
        cases result with
        | error e => exact ⟨ih.launches, ih.gains.mono (List.subset_cons_self p above), nofun⟩
        | ok _ =>
          dsimp only
          rw [outcome_bind, outcome_makeDirectory]
          cases hagain : w'.tree.makeDirectory p.text with
          | ok t => exact .made ih.launches ih.gains hagain
          | error e => exact .settled ih.launches ih.gains
      · exact .settled rfl hrefl

end EditList
