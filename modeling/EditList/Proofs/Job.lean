import EditList.Job
import EditList.Proofs.Host

/-!
# What a job does

A job is checked before anything happens, then the directory of its output is made, then the encoder is
probed, and only then it encodes.  `Rendering` lists the ways in which this can end, `rendering` says
that there are no others, and `render_effects_in_order` is what follows for every edit list, tree and
behaviour of the programs.
-/

namespace EditList

open FileTree Simulation

variable {programs : Programs}

/-! ### The paths above a path -/

theorem Path.above_dropWhile (origin : Origin) (steps : List String) :
    above origin (steps.dropWhile isIdle) = above origin steps := by
  induction steps with
  | nil => rfl
  | cons step steps ih =>
    by_cases hidle : isIdle step = true
    · rw [List.dropWhile_cons_of_pos hidle, ih, above, if_pos hidle]
    · rw [List.dropWhile_cons_of_neg hidle]

theorem Path.ancestors_eq_cons {p parent : Path} (h : p.parent? = some parent) :
    p.ancestors = parent :: parent.ancestors := by
  obtain ⟨origin, steps⟩ := p
  have hhead : (above origin steps).head? = some parent := h
  show above origin steps = parent :: above parent.origin parent.steps
  induction steps with
  | nil =>
    rw [above] at hhead ⊢
    split_ifs at hhead ⊢
    · obtain rfl := Option.some.inj hhead
      rfl
    · cases hhead
  | cons step steps ih =>
    rw [above] at hhead ⊢
    split_ifs at hhead ⊢ with hidle
    · exact ih hhead hhead
    · obtain rfl := Option.some.inj hhead
      rw [above_dropWhile]

namespace Job

/-! ### The steps of a run -/

/-- The check of a job in a tree. -/
def checkIn (job : Job) (t : FileTree) : Except Fault Unit :=
  if (Path.ofString job.input).components = (Path.ofString job.output).components then
    .error (.encoder (.sameFile job.input))
  else if (Text.trim job.silence.toList).isEmpty then
    .error (.encoder .blankSilence)
  else if !t.contains job.input then
    .error (.encoder (.missingInput job.input))
  else if !job.overwrite && t.contains job.output then
    .error (.encoder (.outputExists job.output))
  else
    .ok ()

/-- The check looks at the tree and changes nothing. -/
theorem outcome_check (programs : Programs) (job : Job) (w : World) :
    (job.check : ExceptT Fault (Simulation programs) Unit).run.outcome w = (job.checkIn w.tree, w) := by
  unfold check checkIn
  by_cases hsame : (Path.ofString job.input).components = (Path.ofString job.output).components
  · rw [if_pos hsame, if_pos hsame, run_bind, run_throw]
  rw [if_neg hsame, if_neg hsame]
  by_cases hblank : (Text.trim job.silence.toList).isEmpty = true
  · rw [if_pos hblank, if_pos hblank, run_bind, run_throw]
  rw [if_neg hblank, if_neg hblank, run_bind, run_lift, outcome_pathExists]
  cases w.tree.contains job.input with
  | false => rfl
  | true =>
    cases job.overwrite with
    | true => rfl
    | false =>
      simp only [Bool.not_true, Bool.not_false, Bool.false_eq_true, Bool.true_and, ↓reduceIte]
      rw [run_bind, run_lift, outcome_pathExists]
      cases w.tree.contains job.output <;> rfl

/-- What making the directory of a path can do: to the state of the host, and as a result. -/
structure EnsuresParent (path : String) (w : World) (outcome : Except Fault Unit × World) : Prop where
  launches : outcome.2.launches = w.launches
  gains : GainsDirectories (Path.ofString path).ancestors w.tree outcome.2.tree
  /-- After a success there is a directory, unless it is the working directory. -/
  isDirectory : outcome.1 = .ok () → ∀ parent, (Path.ofString path).parent? = some parent →
    parent.text ≠ "" → outcome.2.tree.isDirectory parent.text = true

/-- Making the directory of the output starts no program, adds directories above the output only,
and after a success the directory is there. -/
theorem ensuresParent (programs : Programs) (path : String) (w : World) :
    EnsuresParent path w
      ((ensureParent path : ExceptT Fault (Simulation programs) Unit).run.outcome w) := by
  unfold ensureParent
  cases hparent : (Path.ofString path).parent? with
  | none =>
    rw [run_pure]
    refine ⟨rfl, .refl _ _, ?_⟩
    intro _ parent h
    rw [hparent] at h
    cases h
  | some parent =>
    dsimp only
    by_cases htext : parent.text = ""
    · -- a bare name stands in the working directory, which is not made
      rw [if_neg (not_not_intro htext), run_pure]
      refine ⟨rfl, .refl _ _, fun _ q hq hne => ?_⟩
      obtain rfl : parent = q := Option.some.inj (hparent.symm.trans hq)
      exact absurd htext hne
    · rw [if_pos htext, run_bind, run_lift]
      have hmakes := makesDirectories programs (parent :: parent.ancestors) w
      rw [← Path.ancestors_eq_cons hparent] at hmakes ⊢
      generalize (makeDirectories (Path.ofString path).ancestors : Simulation programs _).outcome w =
        outcome at hmakes ⊢
      obtain ⟨result, w'⟩ := outcome
      cases result with
      | error e => exact ⟨hmakes.launches, hmakes.gains, nofun⟩
      | ok _ => exact ⟨hmakes.launches, hmakes.gains, fun _ => hmakes.isDirectory rfl⟩

/-- The encoder can be run if it answers the probe with the status zero. -/
theorem outcome_canRun (program : String) (w : World) :
    (canRun program : Simulation programs Bool).outcome w =
      match programs w.tree program ["-version"] with
      | .ok (status, tree) => (decide (status = 0), ⟨tree, ⟨program, ["-version"]⟩ :: w.launches⟩)
      | .error _ => (false, w) := by
  unfold canRun
  rw [outcome_bind, outcome_launch]
  cases programs w.tree program ["-version"] <;> rfl

/-! ### The ways in which a run ends -/

/-- The question whether the encoder runs. -/
def probe (job : Job) : Launch :=
  ⟨job.encoder, ["-version"]⟩

/-- The start of the encoder with a filter graph. -/
def encoding (job : Job) (graph : Graph) : Launch :=
  ⟨job.encoder, job.arguments graph.text⟩

/-- No arguments of an encoding ask for a version. -/
theorem encoding_ne_probe (job : Job) (graph : Graph) : job.encoding graph ≠ job.probe := by
  intro h
  have harguments : job.arguments graph.text = ["-version"] := congrArg Launch.arguments h
  have hlength := congrArg List.length harguments
  simp [arguments] at hlength

/-- The edit list compiles, the job is accepted as the tree is, and the directory of the output is made,
which leaves the tree `t₁`. -/
structure Prepared (programs : Programs) (job : Job) (text : String) (t : FileTree) (graph : Graph)
    (t₁ : FileTree) : Prop where
  compiled : compile text = .ok graph
  accepted : (job.check : ExceptT Fault (Simulation programs) Unit).run.outcome ⟨t, []⟩ =
    (.ok (), ⟨t, []⟩)
  ensured : (ensureParent job.output : ExceptT Fault (Simulation programs) Unit).run.outcome ⟨t, []⟩ =
    (.ok (), ⟨t₁, []⟩)

/-- How a run for an edit list can end from a tree in which no program has been started. -/
inductive Rendering (programs : Programs) (job : Job) (text : String) (t : FileTree) :
    Except Fault Unit × World → Prop
  | notCompiled {fault : Fault} (h : compile text = .error fault) :
    Rendering programs job text t (.error fault, ⟨t, []⟩)
  | refused {fault : Fault} (h : job.checkIn t = .error fault) :
    Rendering programs job text t (.error fault, ⟨t, []⟩)
  | noDirectory {graph : Graph} {fault : Fault} {t₁ : FileTree} (hcompile : compile text = .ok graph)
    (haccepted : job.checkIn t = .ok ())
    (h : (ensureParent job.output : ExceptT Fault (Simulation programs) Unit).run.outcome ⟨t, []⟩ =
      (.error fault, ⟨t₁, []⟩)) :
    Rendering programs job text t (.error fault, ⟨t₁, []⟩)
  | notProbed {graph : Graph} {t₁ : FileTree} {e : SystemError}
    (h : Prepared programs job text t graph t₁)
    (hprobe : programs t₁ job.encoder ["-version"] = .error e) :
    Rendering programs job text t (.error (.encoder (.notRunnable job.encoder)), ⟨t₁, []⟩)
  | probeFailed {graph : Graph} {t₁ t₂ : FileTree} {status : UInt8}
    (h : Prepared programs job text t graph t₁)
    (hprobe : programs t₁ job.encoder ["-version"] = .ok (status, t₂)) (hstatus : status ≠ 0) :
    Rendering programs job text t (.error (.encoder (.notRunnable job.encoder)), ⟨t₂, [job.probe]⟩)
  | notStarted {graph : Graph} {t₁ t₂ : FileTree} {e : SystemError}
    (h : Prepared programs job text t graph t₁)
    (hprobe : programs t₁ job.encoder ["-version"] = .ok (0, t₂))
    (hrun : programs t₂ job.encoder (job.arguments graph.text) = .error e) :
    Rendering programs job text t (.error (.encoder (.notStarted e)), ⟨t₂, [job.probe]⟩)
  | failed {graph : Graph} {t₁ t₂ t₃ : FileTree} {status : UInt8}
    (h : Prepared programs job text t graph t₁)
    (hprobe : programs t₁ job.encoder ["-version"] = .ok (0, t₂))
    (hrun : programs t₂ job.encoder (job.arguments graph.text) = .ok (status, t₃))
    (hstatus : status ≠ 0) :
    Rendering programs job text t
      (.error (.encoder (.failed status)), ⟨t₃, [job.encoding graph, job.probe]⟩)
  | done {graph : Graph} {t₁ t₂ t₃ : FileTree} (h : Prepared programs job text t graph t₁)
    (hprobe : programs t₁ job.encoder ["-version"] = .ok (0, t₂))
    (hrun : programs t₂ job.encoder (job.arguments graph.text) = .ok (0, t₃)) :
    Rendering programs job text t (.ok (), ⟨t₃, [job.encoding graph, job.probe]⟩)

/-- Every run ends in one of the ways that `Rendering` lists. -/
theorem rendering (programs : Programs) (job : Job) (text : String) (t : FileTree) :
    Rendering programs job text t
      ((job.render text : ExceptT Fault (Simulation programs) Unit).run.outcome ⟨t, []⟩) := by
  have hlift : (render.liftExcept (compile text) : ExceptT Fault (Simulation programs) _).run.outcome
      ⟨t, []⟩ = (compile text, ⟨t, []⟩) := rfl
  unfold render
  rw [run_bind, hlift]
  cases hcompile : compile text with
  | error fault => exact .notCompiled hcompile
  | ok graph =>
    unfold run
    dsimp only
    have hcheck := outcome_check programs job ⟨t, []⟩
    rw [run_bind, hcheck]
    cases haccepted : job.checkIn t with
    | error fault => exact .refused haccepted
    | ok _ =>
      rw [haccepted] at hcheck
      dsimp only
      have hlaunches := (ensuresParent programs job.output ⟨t, []⟩).launches
      rw [run_bind]
      generalize hensure : (ensureParent job.output :
        ExceptT Fault (Simulation programs) Unit).run.outcome ⟨t, []⟩ = outcome at hlaunches ⊢
      obtain ⟨result, t₁, launches⟩ := outcome
      -- making directories starts no program
      obtain rfl : launches = [] := hlaunches
      cases result with
      | error fault => exact .noDirectory hcompile haccepted hensure
      | ok _ =>
        have hprepared : Prepared programs job text t graph t₁ := ⟨hcompile, hcheck, hensure⟩
        dsimp only
        rw [run_bind, run_lift, outcome_canRun]
        dsimp only
        rcases hprobe : programs t₁ job.encoder ["-version"] with e | ⟨status, t₂⟩
        · exact .notProbed hprepared hprobe
        by_cases hstatus : status = 0
        · subst hstatus
          simp only [decide_true, Bool.not_true, Bool.false_eq_true, ↓reduceIte]
          rw [run_bind, run_lift, outcome_launch]
          dsimp only
          rcases hrun : programs t₂ job.encoder (job.arguments graph.text) with e | ⟨status, t₃⟩
          · exact .notStarted hprepared hprobe hrun
          by_cases hexit : status = 0
          · subst hexit
            exact .done hprepared hprobe hrun
          · simp only [ne_eq, hexit, not_false_eq_true, ↓reduceIte]
            exact .failed hprepared hprobe hrun hexit
        · simp only [hstatus, decide_false, Bool.not_false, ↓reduceIte]
          exact .probeFailed hprepared hprobe hstatus

/-! ### The order of effects -/

section Effects

variable {job : Job} {text : String} {t t₁ t₂ t₁' : FileTree} {graph graph' : Graph}
  {outcome : Except Fault Unit × World} {w : World}

theorem Prepared.checkIn_eq (h : Prepared programs job text t graph t₁) : job.checkIn t = .ok () := by
  have haccepted := h.accepted
  rw [outcome_check] at haccepted
  exact congrArg Prod.fst haccepted

/-- The job is prepared, the directory of the output is there, and the encoder, asked for its version,
exits with success and leaves the tree `t₂`. -/
structure Ready (programs : Programs) (job : Job) (text : String) (t : FileTree) (graph : Graph)
    (t₁ t₂ : FileTree) : Prop extends Prepared programs job text t graph t₁ where
  isDirectory : ∀ parent, (Path.ofString job.output).parent? = some parent → parent.text ≠ "" →
    t₁.isDirectory parent.text = true
  probed : programs t₁ job.encoder ["-version"] = .ok (0, t₂)

/-- A run is prepared and probed in one way only. -/
theorem Ready.unique (hready : Ready programs job text t graph t₁ t₂)
    (h : Prepared programs job text t graph' t₁') {result : Except SystemError (UInt8 × FileTree)}
    (hprobe : programs t₁' job.encoder ["-version"] = result) :
    graph = graph' ∧ result = .ok (0, t₂) := by
  have hgraph := hready.compiled.symm.trans h.compiled
  have htree := hready.ensured.symm.trans h.ensured
  cases hgraph
  cases htree
  exact ⟨rfl, hprobe.symm.trans hready.probed⟩

theorem Prepared.ensures (h : Prepared programs job text t graph t₁) :
    EnsuresParent job.output ⟨t, []⟩ (.ok (), ⟨t₁, []⟩) := by
  rw [← h.ensured]
  exact ensuresParent programs job.output ⟨t, []⟩

theorem Prepared.ready (h : Prepared programs job text t graph t₁)
    (hprobe : programs t₁ job.encoder ["-version"] = .ok (0, t₂)) :
    Ready programs job text t graph t₁ t₂ :=
  ⟨h, h.ensures.isDirectory rfl, hprobe⟩

/-- The tree that is left by programs started one after the other, the latest first in the list. -/
inductive Ran (programs : Programs) (t : FileTree) : List Launch → FileTree → Prop
  | nil : Ran programs t [] t
  | cons {launches : List Launch} {t' t'' : FileTree} {program : String} {arguments : List String}
    {status : UInt8} (h : Ran programs t launches t')
    (hrun : programs t' program arguments = .ok (status, t'')) :
    Ran programs t (⟨program, arguments⟩ :: launches) t''

/-- What is done for an edit list from a tree in which no program has been started. -/
structure EffectsInOrder (programs : Programs) (job : Job) (text : String) (t : FileTree)
    (outcome : Except Fault Unit × World) : Prop where
  /-- The encoder encodes at most once. -/
  once : (outcome.2.launches.filter (· ≠ job.probe)).length ≤ 1
  /-- Before that all else has gone well, and the encoder gets the arguments of the job. -/
  started : ∀ launch ∈ outcome.2.launches, launch ≠ job.probe → ∃ graph t₁ t₂,
    Ready programs job text t graph t₁ t₂ ∧ launch = job.encoding graph ∧
      outcome.2.launches = [launch, job.probe]
  /-- If all else has gone well and the encoder starts, this is the last that is done. -/
  starts : ∀ graph t₁ t₂ status t₃, Ready programs job text t graph t₁ t₂ →
    programs t₂ job.encoder (job.arguments graph.text) = .ok (status, t₃) →
      outcome.2 = ⟨t₃, [job.encoding graph, job.probe]⟩
  /-- The result is a success just if the encoder has encoded with success. -/
  ok_iff : outcome.1 = .ok () ↔ ∃ graph t₁ t₂, Ready programs job text t graph t₁ t₂ ∧
    outcome.2.launches = [job.encoding graph, job.probe] ∧
      programs t₂ job.encoder (job.arguments graph.text) = .ok (0, outcome.2.tree)
  /-- For a text that does not compile or a job that is refused nothing is done. -/
  untouched : ∀ fault, compile text = .error fault ∨
    ((job.check : ExceptT Fault (Simulation programs) Unit).run.outcome ⟨t, []⟩).1 = .error fault →
      outcome.1 ≠ .ok () ∧ outcome.2 = ⟨t, []⟩
  /-- What is not done by the programs is to make directories above the output. -/
  changes : ∃ t₁, GainsDirectories (Path.ofString job.output).ancestors t t₁ ∧
    Ran programs t₁ outcome.2.launches outcome.2.tree

namespace Rendering

/-- No program is started, or the probe alone, or the probe and after it the encoding of a job that
was ready. -/
theorem launches_eq (h : Rendering programs job text t outcome) :
    outcome.2.launches = [] ∨ outcome.2.launches = [job.probe] ∨ ∃ graph t₁ t₂,
      Ready programs job text t graph t₁ t₂ ∧
        outcome.2.launches = [job.encoding graph, job.probe] := by
  cases h with
  | notCompiled h => exact .inl rfl
  | refused h => exact .inl rfl
  | noDirectory hcompile haccepted h => exact .inl rfl
  | notProbed h hprobe => exact .inl rfl
  | probeFailed h hprobe hstatus => exact .inr (.inl rfl)
  | notStarted h hprobe hrun => exact .inr (.inl rfl)
  | failed h hprobe hrun hstatus => exact .inr (.inr ⟨_, _, _, h.ready hprobe, rfl⟩)
  | done h hprobe hrun => exact .inr (.inr ⟨_, _, _, h.ready hprobe, rfl⟩)

/-- A run that gets as far as the encoding ends as the encoding does. -/
theorem eq_of_ready (h : Rendering programs job text t outcome)
    (hready : Ready programs job text t graph t₁ t₂) {status : UInt8} {t₃ : FileTree}
    (hencode : programs t₂ job.encoder (job.arguments graph.text) = .ok (status, t₃)) :
    outcome = (if status = 0 then .ok () else .error (.encoder (.failed status)),
      ⟨t₃, [job.encoding graph, job.probe]⟩) := by
  cases h with
  -- an end that comes earlier contradicts one of the steps that went well
  | notCompiled h => cases h.symm.trans hready.compiled
  | refused h => cases h.symm.trans hready.checkIn_eq
  | noDirectory hcompile haccepted h => cases h.symm.trans hready.ensured
  | notProbed h hprobe => cases (hready.unique h hprobe).2
  | probeFailed h hprobe hstatus =>
    cases (hready.unique h hprobe).2
    exact absurd rfl hstatus
  | notStarted h hprobe hrun =>
    obtain ⟨rfl, htree⟩ := hready.unique h hprobe
    cases htree
    cases hrun.symm.trans hencode
  | failed h hprobe hrun hstatus =>
    obtain ⟨rfl, htree⟩ := hready.unique h hprobe
    cases htree
    cases hrun.symm.trans hencode
    rw [if_neg hstatus]
  | done h hprobe hrun =>
    obtain ⟨rfl, htree⟩ := hready.unique h hprobe
    cases htree
    cases hrun.symm.trans hencode
    rw [if_pos rfl]

/-- A success means that the encoder was ready, was started and exited with zero. -/
theorem ready_of_ok (h : Rendering programs job text t (.ok (), w)) : ∃ graph t₁ t₂,
    Ready programs job text t graph t₁ t₂ ∧ w.launches = [job.encoding graph, job.probe] ∧
      programs t₂ job.encoder (job.arguments graph.text) = .ok (0, w.tree) := by
  cases h with
  | done h hprobe hrun => exact ⟨_, _, _, h.ready hprobe, rfl, hrun⟩

/-- What is refused leaves no trace. -/
theorem eq_of_refused (h : Rendering programs job text t outcome) {fault : Fault}
    (hfault : compile text = .error fault ∨ job.checkIn t = .error fault) :
    outcome.1 ≠ .ok () ∧ outcome.2 = ⟨t, []⟩ := by
  have hnot : ∀ {graph}, compile text = .ok graph → job.checkIn t ≠ .ok () := by
    intro graph hcompile haccepted
    rcases hfault with hfault | hfault
    · cases hfault.symm.trans hcompile
    · cases hfault.symm.trans haccepted
  cases h with
  | notCompiled h => exact ⟨nofun, rfl⟩
  | refused h => exact ⟨nofun, rfl⟩
  | noDirectory hcompile haccepted h => exact absurd haccepted (hnot hcompile)
  | notProbed h hprobe => exact absurd h.checkIn_eq (hnot h.compiled)
  | probeFailed h hprobe hstatus => exact absurd h.checkIn_eq (hnot h.compiled)
  | notStarted h hprobe hrun => exact absurd h.checkIn_eq (hnot h.compiled)
  | failed h hprobe hrun hstatus => exact absurd h.checkIn_eq (hnot h.compiled)
  | done h hprobe hrun => exact absurd h.checkIn_eq (hnot h.compiled)

/-- All changes are directories above the output and what the programs did. -/
theorem changes (h : Rendering programs job text t outcome) :
    ∃ t₁, GainsDirectories (Path.ofString job.output).ancestors t t₁ ∧
      Ran programs t₁ outcome.2.launches outcome.2.tree := by
  cases h with
  | notCompiled h => exact ⟨t, .refl _ t, .nil⟩
  | refused h => exact ⟨t, .refl _ t, .nil⟩
  | noDirectory hcompile haccepted h =>
    have hensures := ensuresParent programs job.output ⟨t, []⟩
    rw [h] at hensures
    exact ⟨_, hensures.gains, .nil⟩
  | notProbed h hprobe => exact ⟨_, h.ensures.gains, .nil⟩
  | probeFailed h hprobe hstatus => exact ⟨_, h.ensures.gains, .cons .nil hprobe⟩
  | notStarted h hprobe hrun => exact ⟨_, h.ensures.gains, .cons .nil hprobe⟩
  | failed h hprobe hrun hstatus => exact ⟨_, h.ensures.gains, .cons (.cons .nil hprobe) hrun⟩
  | done h hprobe hrun => exact ⟨_, h.ensures.gains, .cons (.cons .nil hprobe) hrun⟩

end Rendering

end Effects

/-- For every text, job, tree and behaviour of programs the effects of a run come in their order.
The encoder is started at most once, with the arguments of the job, and only after everything before
it went well; a success is the same as its exit with zero; a text or job that is refused changes
nothing; and apart from what the programs do only directories above the output are new. -/
theorem render_effects_in_order (programs : Programs) (job : Job) (text : String) (t : FileTree) :
    EffectsInOrder programs job text t
      ((job.render text : ExceptT Fault (Simulation programs) Unit).run.outcome ⟨t, []⟩) := by
  have h := rendering programs job text t
  generalize (job.render text : ExceptT Fault (Simulation programs) Unit).run.outcome ⟨t, []⟩ =
    outcome at h ⊢
  -- every way in which a run can end is known, so each part is read off the cases
  refine ⟨?_, ?_, ?_, ?_, ?_, h.changes⟩
  · rcases h.launches_eq with h | h | ⟨graph, t₁, t₂, -, h⟩
    · simp [h]
    · simp [h]
    · simp [h, job.encoding_ne_probe graph]
  · intro launch hlaunch hne
    rcases h.launches_eq with h | h | ⟨graph, t₁, t₂, hready, h⟩
    · simp [h] at hlaunch
    · simp [h, hne] at hlaunch
    · obtain rfl : launch = job.encoding graph := by simpa [h, hne] using hlaunch
      exact ⟨graph, t₁, t₂, hready, rfl, h⟩
  · intro graph t₁ t₂ status t₃ hready hencode
    exact congrArg Prod.snd (h.eq_of_ready hready hencode)
  · constructor
    · intro hok
      obtain ⟨result, w⟩ := outcome
      obtain rfl : result = .ok () := hok
      exact h.ready_of_ok
    · rintro ⟨graph, t₁, t₂, hready, -, hencode⟩
      have hresult := congrArg Prod.fst (h.eq_of_ready hready hencode)
      rwa [if_pos rfl] at hresult
  · intro fault hfault
    rw [outcome_check] at hfault
    exact h.eq_of_refused hfault

/-- An encoder that does what it is asked to do, and an output two new directories further down. -/
theorem render_effects_in_order_new_directories :
    let job := { Job.new "in.mkv" "a/b/out.mkv" with encoder := "./encoder" }
    let t : FileTree := ⟨[("in.mkv", .file .empty), ("encoder", .program ⟨0, 0, true, false⟩)], []⟩
    let outcome := (job.render "cut 0 - 2" :
      ExceptT Fault (Simulation StandIn.programs) Unit).run.outcome ⟨t, []⟩
    outcome.1 = .ok () ∧ t.isDirectory "a/b" = false ∧ ∃ graph t₁ t₂,
      Ready StandIn.programs job "cut 0 - 2" t graph t₁ t₂ ∧ t₁.isDirectory "a/b" = true ∧
        outcome.2.launches = [job.encoding graph, job.probe] ∧
        job.probe = ⟨"./encoder", ["-version"]⟩ ∧
        job.encoding graph = ⟨"./encoder", ["-n", "-i", "in.mkv", "-f", "lavfi", "-i", "anullsrc",
          "-filter_complex", "[0:v]trim=start=2.00,setpts=PTS-STARTPTS[outv];" ++
            "[0:a]atrim=start=2.00,asetpts=PTS-STARTPTS[outa]",
          "-map", "[outv]", "-map", "[outa]", "a/b/out.mkv"]⟩ := by
  intro job t outcome
  have hok : outcome.1 = .ok () := by decide +kernel
  have heffects : EffectsInOrder StandIn.programs job "cut 0 - 2" t outcome :=
    render_effects_in_order StandIn.programs job "cut 0 - 2" t
  obtain ⟨graph, t₁, t₂, hready, hlaunches, -⟩ := heffects.ok_iff.1 hok
  have hparent : (Path.ofString job.output).parent? = some ⟨.implicit, ["b", "a"]⟩ := by decide +kernel
  have htext : Path.text ⟨.implicit, ["b", "a"]⟩ = "a/b" := by decide +kernel
  refine ⟨hok, by decide +kernel, graph, t₁, t₂, hready, ?_, hlaunches, rfl, ?_⟩
  · rw [← htext]
    exact hready.isDirectory _ hparent (by decide +kernel)
  · refine apply_eq_of_eq_ok job.encoding hready.compiled ?_
    decide +kernel

end Job

end EditList
