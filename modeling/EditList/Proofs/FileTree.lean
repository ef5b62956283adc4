import EditList.FileTree
import EditList.Proofs.Except
import Mathlib.Data.List.Infix
import Mathlib.Data.List.TakeWhile

/-!
# Places in a file tree

A place in a tree is given by the names that lead to it from the root (`Place.names`).  There are no
links of any kind, symbolic or hard, so places that a walk can reach are the same if their names are
(`Reached.eq_of_names_eq`).  The names at the end of a walk depend on the spelling of its steps only
(`Reached.of_walk`); whether it gets there depends on the kinds of the entries on its way
(`Reached.exists_walk`).

Making a directory puts one where there was nothing, and changes the kind of nothing else
(`addsDirectory_of_makeDirectory`).  `GainsDirectories` says this of many that are made one by one.
-/

namespace EditList

/-! ### Entries by their names -/

/-- The entry that names lead to, from the outermost to the innermost. -/
def Entry.under : List String → Entry → Option Entry
  | [], e => some e
  | name :: rest, .directory d => (d.lookup name).bind (under rest)
  | _ :: _, _ => none

theorem Entry.under_append (as bs : List String) (e : Entry) :
    e.under (as ++ bs) = (e.under as).bind (under bs) := by
  induction as generalizing e with
  | nil => rfl
  | cons name as ih =>
    cases e with
    | directory d =>
      rw [List.cons_append, under, under, Option.bind_assoc]
      congr 1
      funext e
      exact ih e
    | file content => rfl
    | program s => rfl

/-- What an entry is; of a directory, no more than that it is one. -/
inductive Kind where
  | directory
  | file (content : ByteArray)
  | program (standIn : StandIn)

/-- The kind of an entry. -/
def Entry.kind : Entry → Kind
  | .directory _ => .directory
  | .file content => .file content
  | .program s => .program s

theorem Entry.exists_of_kind {e : Entry} (h : e.kind = .directory) : ∃ d, e = .directory d := by
  cases e with
  | directory d => exact ⟨d, rfl⟩
  | file content => cases h
  | program s => cases h

/-- The kind of the entry that names lead to from a root. -/
def Directory.kindAt (root : Directory) (names : List String) : Option Kind :=
  ((Entry.directory root).under names).map Entry.kind

theorem Directory.kindAt_cons (d : Directory) (name : String) (rest : List String) :
    d.kindAt (name :: rest) = ((d.lookup name).bind (Entry.under rest)).map Entry.kind :=
  rfl

/-- Dropping a name hides that name and no other. -/
theorem Directory.lookup_filter_ne (d : Directory) (name other : String) :
    (d.filter (·.1 ≠ name)).lookup other = if other = name then none else d.lookup other := by
  induction d with
  | nil => simp
  | cons entry d ih =>
    obtain ⟨key, e⟩ := entry
    by_cases hkey : key = name
    · subst hkey
      rw [List.filter_cons_of_neg (by simp), ih, List.lookup_cons]
      grind
    · rw [List.filter_cons_of_pos (by simpa using hkey), List.lookup_cons, ih, List.lookup_cons]
      grind

/-- Replacing an entry changes what is found under its name only. -/
theorem Directory.lookup_replace (d : Directory) (name other : String) (e : Entry) :
    (d.replace name (some e)).lookup other = if other = name then some e else d.lookup other := by
  show ((name, e) :: d.filter (·.1 ≠ name)).lookup other = _
  rw [List.lookup_cons, lookup_filter_ne]
  grind

namespace Place

variable {root : Directory} {p q : Place} {name : String} {steps : List String}

/-! ### Places that a walk reaches -/

/-- The names that lead to a place from the root. -/
def names (p : Place) : List String :=
  (p.way.map Prod.fst).reverse

/-- A place that is reached from the root. -/
inductive Reached (root : Directory) : Place → Prop
  | top : Reached root (top root)
  | enter {p : Place} {d : Directory} (hp : Reached root p) (hd : p.found = some (.directory d))
    (name : String) : Reached root ⟨d.lookup name, (name, d) :: p.way⟩

theorem names_enter (p : Place) (found : Option Entry) (name : String) (d : Directory) :
    (Place.mk found ((name, d) :: p.way)).names = p.names ++ [name] := by
  simp [names]

theorem names_above (p : Place) : p.above.names = p.names.dropLast := by
  obtain ⟨found, way⟩ := p
  cases way with
  | nil => rfl
  | cons entry way => simp [above, names]

namespace Reached

/-- What a walk finds is what its names lead to. -/
theorem found_eq (h : Reached root p) : p.found = (Entry.directory root).under p.names := by
  induction h with
  | top => rfl
  | enter hp hd name ih =>
    rw [names_enter, Entry.under_append, ← ih, hd]
    exact (Option.bind_fun_some _).symm

theorem kindAt_names (h : Reached root p) : root.kindAt p.names = p.found.map Entry.kind := by
  rw [Directory.kindAt, ← h.found_eq]

theorem exists_directory (h : Reached root p) (hkind : root.kindAt p.names = some .directory) :
    ∃ d, p.found = some (.directory d) := by
  rw [h.kindAt_names, Option.map_eq_some_iff] at hkind
  obtain ⟨e, he, hkind⟩ := hkind
  obtain ⟨d, rfl⟩ := Entry.exists_of_kind hkind
  exact ⟨d, he⟩

/-- Below a directory that a walk has reached, the names go on from it. -/
theorem kindAt_append {d : Directory} (h : Reached root p) (hd : p.found = some (.directory d))
    (rest : List String) : root.kindAt (p.names ++ rest) = d.kindAt rest := by
  rw [Directory.kindAt, Entry.under_append, ← h.found_eq, hd]
  rfl

theorem kindAt_append_none (h : Reached root p) (hnone : p.found = none) (rest : List String) :
    root.kindAt (p.names ++ rest) = none := by
  rw [Directory.kindAt, Entry.under_append, ← h.found_eq, hnone]
  rfl

/-- The names of a place that was reached tell the place. -/
theorem eq_of_names_eq (hp : Reached root p) (hq : Reached root q) (h : p.names = q.names) :
    p = q := by
  induction hp generalizing q with
  | top =>
    cases hq with
    | top => rfl
    | enter hq hd name =>
      rw [names_enter] at h
      simp [Place.top, names] at h
  | enter hp hd name ih =>
    cases hq with
    | top =>
      rw [names_enter] at h
      simp [Place.top, names] at h
    | enter hq hd' name' =>
      rw [names_enter, names_enter] at h
      obtain ⟨hnames, hname⟩ := List.append_inj' h rfl
      obtain rfl := ih hq hnames
      obtain rfl := List.singleton_inj.1 hname
      rw [hd] at hd'
      cases hd'
      rfl

theorem above (h : Reached root p) : Reached root p.above := by
  cases h with
  | top => exact .top
  | @enter p d hp hd name =>
    have heq : p = ⟨some (.directory d), p.way⟩ := by rw [← hd]
    exact heq ▸ hp

end Reached

/-! ### Walks -/

/-- The names that one more step leads to, by its spelling. -/
def follow (names : List String) (step : String) : List String :=
  if isIdle step then names
  else if step = ".." then names.dropLast
  else names ++ [step]

/-- Where a step leads depends on its spelling, if it can be made at all. -/
theorem Reached.of_step (hp : Reached root p) (h : p.step name = .ok q) :
    Reached root q ∧ q.names = follow p.names name := by
  unfold step at h
  unfold follow
  split at h
  · next d hd =>
    split at h
    · next hidle =>
      obtain rfl := Except.ok.inj h
      exact ⟨hp, (if_pos hidle).symm⟩
    · next hidle =>
      rw [if_neg hidle]
      split at h
      · next hup =>
        obtain rfl := Except.ok.inj h
        exact ⟨hp.above, (names_above p).trans (if_pos hup).symm⟩
      · next hup =>
        split at h
        · cases h
        · obtain rfl := Except.ok.inj h
          exact ⟨hp.enter hd name, (names_enter p _ name d).trans (if_neg hup).symm⟩
  · cases h
  · cases h

theorem walk_cons_eq_ok : p.walk (name :: steps) = .ok q ↔
    ∃ next, p.step name = .ok next ∧ next.walk steps = .ok q := by
  rw [walk]
  cases p.step name with
  | error e => simp
  | ok next => simp

theorem walk_append_eq_ok {as bs : List String} : p.walk (as ++ bs) = .ok q ↔
    ∃ middle, p.walk as = .ok middle ∧ middle.walk bs = .ok q := by
  induction as generalizing p with
  | nil => simp [walk]
  | cons name as ih =>
    rw [List.cons_append, walk_cons_eq_ok]
    simp only [walk_cons_eq_ok, ih]
    grind

/-- Where a walk leads depends on the spelling of its steps only. -/
theorem Reached.of_walk (hp : Reached root p) (h : p.walk steps = .ok q) :
    Reached root q ∧ q.names = steps.foldl follow p.names := by
  induction steps generalizing p with
  | nil =>
    obtain rfl := Except.ok.inj h
    exact ⟨hp, rfl⟩
  | cons name steps ih =>
    obtain ⟨next, hstep, hwalk⟩ := walk_cons_eq_ok.1 h
    obtain ⟨hnext, hnames⟩ := hp.of_step hstep
    rw [List.foldl_cons, ← hnames]
    exact ih hnext hwalk

theorem walk_of_idle {d : Directory} (hd : p.found = some (.directory d))
    (h : ∀ step ∈ steps, isIdle step = true) : p.walk steps = .ok p := by
  induction steps with
  | nil => rfl
  | cons name steps ih =>
    rw [List.forall_mem_cons] at h
    have hstep : p.step name = .ok p := by rw [step, hd]; exact if_pos h.1
    exact walk_cons_eq_ok.2 ⟨p, hstep, ih h.2⟩

/-! ### Walks in two trees -/

section TwoTrees

variable {root' : Directory} {p' : Place}

/-- A step needs a directory to start from and asks nothing else of the tree. -/
theorem Reached.exists_step (hp : Reached root p) (hp' : Reached root' p') (hnames : p'.names = p.names)
    (hkeeps : ∀ names, root.kindAt names = some .directory → root'.kindAt names = some .directory)
    (h : p.step name = .ok q) : ∃ q', p'.step name = .ok q' := by
  obtain ⟨d, hd⟩ : ∃ d, p.found = some (.directory d) := by
    unfold step at h
    split at h
    · next d hd => exact ⟨d, hd⟩
    · cases h
    · cases h
  have hkind : root.kindAt p.names = some .directory := by
    rw [hp.kindAt_names, hd]
    rfl
  obtain ⟨d', hd'⟩ := hp'.exists_directory (hnames ▸ hkeeps _ hkind)
  simp only [step, hd] at h
  simp only [step, hd']
  split_ifs at h ⊢
  all_goals exact ⟨_, rfl⟩

/-- A walk needs the directories on its way and asks nothing else of the tree. -/
theorem Reached.exists_walk (hp : Reached root p) (hp' : Reached root' p') (hnames : p'.names = p.names)
    (hkeeps : ∀ names, root.kindAt names = some .directory → root'.kindAt names = some .directory)
    (h : p.walk steps = .ok q) : ∃ q', p'.walk steps = .ok q' := by
  induction steps generalizing p p' with
  | nil => exact ⟨p', rfl⟩
  | cons name steps ih =>
    -- the two walks stay at the same names, each in its own tree
    obtain ⟨next, hstep, hwalk⟩ := walk_cons_eq_ok.1 h
    obtain ⟨next', hstep'⟩ := hp.exists_step hp' hnames hkeeps hstep
    obtain ⟨hnext, hfollow⟩ := hp.of_step hstep
    obtain ⟨hnext', hfollow'⟩ := hp'.of_step hstep'
    have hsame : next'.names = next.names := by rw [hfollow', hfollow, hnames]
    obtain ⟨q', hq'⟩ := ih hnext hnext' hsame hwalk
    exact ⟨q', walk_cons_eq_ok.2 ⟨next', hstep', hq'⟩⟩

end TwoTrees

/-! ### Changing one place -/

/-- Putting a directory at a place changes what is under it, and no kind elsewhere. -/
theorem Reached.kindAt_attach (h : Reached root p) (d : Directory) (names : List String) :
    Directory.kindAt (attach (some (.directory d)) p.way) names =
      if p.names <+: names then d.kindAt (names.drop p.names.length) else root.kindAt names := by
  induction h generalizing d with
  | top => simp [Place.top, Place.names, attach]
  | @enter p outer hp hd name ih =>
    -- the directory around the place is put in with it, and differs from what was there at `name` only
    rw [attach, ih, names_enter]
    by_cases hunder : p.names <+: names
    · obtain ⟨rest, rfl⟩ := hunder
      rw [if_pos (List.prefix_append _ _), List.drop_left]
      cases rest with
      | nil =>
        have hnot : ¬ p.names ++ [name] <+: p.names ++ [] := by
          rw [List.prefix_append_right_inj, List.prefix_nil]
          exact List.cons_ne_nil name []
        rw [if_neg hnot, hp.kindAt_append hd]
        rfl
      | cons first rest =>
        simp only [List.prefix_append_right_inj, List.cons_prefix_cons, List.nil_prefix, and_true]
        rw [Directory.kindAt_cons, Directory.lookup_replace]
        by_cases hfirst : first = name
        · subst hfirst
          rw [if_pos rfl, if_pos rfl, List.append_cons p.names first rest, List.drop_left]
          rfl
        · rw [if_neg hfirst, if_neg (Ne.symm hfirst), hp.kindAt_append hd]
          rfl
    · have hnot : ¬ p.names ++ [name] <+: names :=
        fun h => hunder ((List.prefix_append _ _).trans h)
      rw [if_neg hunder, if_neg hnot]

end Place

namespace FileTree

open Place

variable {t t' : FileTree} {path : String} {place : Place} {p : Path}

/-! ### Paths -/

/-- The names that a path leads to from the root, by its spelling. -/
def resolve (t : FileTree) (p : Path) : List String :=
  ((if p.origin = .root then [] else t.workingDirectory) ++ p.steps.reverse).foldl follow []

/-- A walk along a path ends at the names that the path resolves to. -/
theorem reached_of_walk (h : t.walk p = .ok place) :
    Reached t.root place ∧ place.names = t.resolve p :=
  Reached.top.of_walk h

/-- Resolving a path looks at the working directory and not at the tree. -/
theorem resolve_congr (h : t'.workingDirectory = t.workingDirectory) (p : Path) :
    t'.resolve p = t.resolve p := by
  rw [resolve, resolve, h]

/-- A walk that gets to its end does so in every tree that has the same directories. -/
theorem exists_walk (h : t'.workingDirectory = t.workingDirectory)
    (hkeeps : ∀ names, t.root.kindAt names = some .directory → t'.root.kindAt names = some .directory)
    (hwalk : t.walk p = .ok place) : ∃ place', t'.walk p = .ok place' := by
  have htop : Reached t.root (top t.root) := .top
  have htop' : Reached t'.root (top t'.root) := .top
  rw [walk, h]
  exact htop.exists_walk htop' rfl hkeeps hwalk

theorem locate_eq_ok : t.locate path = .ok place ↔
    checkPath path = .ok () ∧ t.walk (Path.ofString path) = .ok place :=
  check_bind_eq_ok

theorem reached_of_locate (h : t.locate path = .ok place) :
    Reached t.root place ∧ place.names = t.resolve (Path.ofString path) :=
  reached_of_walk (locate_eq_ok.1 h).2

theorem find_eq_ok {e : Entry} :
    t.find path = .ok e ↔ ∃ place, t.locate path = .ok place ∧ place.found = some e := by
  rw [find, bind_eq_ok]
  refine exists_congr fun place => and_congr_right fun _ => ?_
  cases place.found with
  | none => simp [throw, throwThe, MonadExceptOf.throw]
  | some entry => simp [pure, Except.pure]

theorem contains_iff : t.contains path = true ↔
    ∃ place, t.locate path = .ok place ∧ place.found.isSome = true := by
  have hbool : t.contains path = true ↔ ∃ e, t.find path = .ok e := by
    unfold contains
    cases t.find path <;> simp [Except.toBool]
  simp only [hbool, find_eq_ok, Option.isSome_iff_exists]
  grind

theorem isDirectory_iff : t.isDirectory path = true ↔
    ∃ place d, t.locate path = .ok place ∧ place.found = some (.directory d) := by
  have hbool : t.isDirectory path = true ↔ ∃ d, t.find path = .ok (.directory d) := by
    unfold isDirectory
    split <;> simp_all
  simp only [hbool, find_eq_ok]
  grind

/-! ### Steps that stay -/

theorem foldl_follow_of_idle {steps : List String} (h : ∀ step ∈ steps, isIdle step = true)
    (names : List String) : steps.foldl follow names = names := by
  induction steps with
  | nil => rfl
  | cons step steps ih =>
    rw [List.forall_mem_cons] at h
    rw [List.foldl_cons, follow, if_pos h.1, ih h.2]

/-- Slashes at the end of a path lead nowhere. -/
theorem reverse_steps (steps : List String) : ∃ slashes,
    (∀ step ∈ slashes, isIdle step = true) ∧
      steps.reverse = (steps.dropWhile (· = "")).reverse ++ slashes := by
  refine ⟨(steps.takeWhile (· = "")).reverse, ?_, ?_⟩
  · intro step hstep
    have hempty := List.mem_takeWhile_imp (List.mem_reverse.1 hstep)
    rw [isIdle, hempty, Bool.true_or]
  · rw [← List.reverse_append, List.takeWhile_append_dropWhile]

/-! ### Making a directory -/

/-- The second tree is the first one with a directory at a place where there was nothing. -/
structure AddsDirectory (t t' : FileTree) (names : List String) : Prop where
  workingDirectory : t'.workingDirectory = t.workingDirectory
  absent : t.root.kindAt names = none
  kindAt : ∀ others, t'.root.kindAt others =
    if others = names then some .directory else t.root.kindAt others

/-- A new directory takes none away. -/
theorem AddsDirectory.keeps {names : List String} (h : AddsDirectory t t' names) (others : List String)
    (hdirectory : t.root.kindAt others = some .directory) :
    t'.root.kindAt others = some .directory := by
  rw [h.kindAt]
  split
  · rfl
  · exact hdirectory

/-- The path without slashes at its end, as a new directory is looked for. -/
def bare (path : String) : Path :=
  { Path.ofString path with steps := (Path.ofString path).steps.dropWhile (· = "") }

/-- Slashes at the end of a path do not change where it leads. -/
theorem resolve_bare (t : FileTree) (path : String) :
    t.resolve (bare path) = t.resolve (Path.ofString path) := by
  obtain ⟨slashes, hidle, hsteps⟩ := reverse_steps (Path.ofString path).steps
  rw [resolve, resolve, hsteps, ← List.append_assoc]
  exact (List.foldl_append.trans (foldl_follow_of_idle hidle _)).symm

theorem slot_eq_some (h : t.slot path = .ok (some place)) :
    checkPath path = .ok () ∧ t.walk (bare path) = .ok place := by
  obtain ⟨hcheck, h⟩ := check_bind_eq_ok.1 h
  obtain ⟨found, hwalk, h⟩ := bind_eq_ok.1 h
  refine ⟨hcheck, ?_⟩
  split at h
  · cases h
  · split_ifs at h
    · cases h
    · obtain rfl := Option.some.inj (Except.ok.inj h)
      exact hwalk

/-- A directory is only made where a walk finds nothing, and it is empty. -/
theorem makeDirectory_eq_ok (h : t.makeDirectory path = .ok t') :
    ∃ place, checkPath path = .ok () ∧ t.walk (bare path) = .ok place ∧ place.found = none ∧
      t' = t.replace place (some (.directory [])) := by
  obtain ⟨slot, hslot, h⟩ := bind_eq_ok.1 h
  cases slot with
  | none => cases h
  | some place =>
    obtain ⟨hcheck, hwalk⟩ := slot_eq_some hslot
    dsimp only at h
    split at h
    · cases h
    · next hnone => exact ⟨place, hcheck, hwalk, hnone, (Except.ok.inj h).symm⟩

/-- Making a directory adds it at the names that its path resolves to, and changes no kind
elsewhere. -/
theorem addsDirectory_of_makeDirectory (h : t.makeDirectory path = .ok t') :
    AddsDirectory t t' (t.resolve (Path.ofString path)) := by
  obtain ⟨place, -, hwalk, hnone, rfl⟩ := makeDirectory_eq_ok h
  obtain ⟨hplace, hnames⟩ := reached_of_walk hwalk
  rw [← resolve_bare, ← hnames]
  have habsent : t.root.kindAt place.names = none := by
    rw [hplace.kindAt_names, hnone]
    rfl
  refine ⟨rfl, habsent, fun others => ?_⟩
  show Directory.kindAt (attach (some (.directory [])) place.way) others = _
  rw [hplace.kindAt_attach]
  by_cases hunder : place.names <+: others
  · obtain ⟨rest, rfl⟩ := hunder
    rw [if_pos (List.prefix_append _ _), List.drop_left]
    cases rest with
    | nil => rw [List.append_nil, if_pos rfl]; rfl
    | cons name rest =>
      -- the new directory is empty, and before there was nothing to look into
      have hne : place.names ++ name :: rest ≠ place.names := by simp
      rw [if_neg hne, hplace.kindAt_append_none hnone]
      rfl
  · have hne : others ≠ place.names := by
      rintro rfl
      exact hunder List.prefix_rfl
    rw [if_neg hunder, if_neg hne]

/-- A directory that was made is found under its path. -/
theorem isDirectory_of_makeDirectory (h : t.makeDirectory path = .ok t') :
    t'.isDirectory path = true := by
  have hadds := addsDirectory_of_makeDirectory h
  obtain ⟨place, hcheck, hwalk, -, -⟩ := makeDirectory_eq_ok h
  -- what was a directory still is one, so the same walk gets to the new directory
  obtain ⟨place', hwalk'⟩ := exists_walk hadds.workingDirectory hadds.keeps hwalk
  obtain ⟨hplace', hnames'⟩ := reached_of_walk hwalk'
  have hnames : place'.names = t.resolve (Path.ofString path) := by
    rw [hnames', resolve_bare, resolve_congr hadds.workingDirectory]
  obtain ⟨d, hd⟩ : ∃ d, place'.found = some (.directory d) := by
    apply hplace'.exists_directory
    rw [hadds.kindAt, if_pos hnames]
  refine isDirectory_iff.2 ⟨place', d, locate_eq_ok.2 ⟨hcheck, ?_⟩, hd⟩
  -- the slashes at the end, which making the directory ignores, do not leave it
  obtain ⟨slashes, hidle, hsteps⟩ := reverse_steps (Path.ofString path).steps
  rw [walk, hsteps, ← List.append_assoc]
  exact walk_append_eq_ok.2 ⟨place', hwalk', walk_of_idle hd hidle⟩

/-! ### Making directories -/

/-- The second tree is the first one with directories at some of the paths, where there was nothing. -/
structure GainsDirectories (paths : List Path) (t t' : FileTree) : Prop where
  workingDirectory : t'.workingDirectory = t.workingDirectory
  kindAt : ∀ names, t'.root.kindAt names = t.root.kindAt names ∨
    t.root.kindAt names = none ∧ t'.root.kindAt names = some .directory ∧
      ∃ p ∈ paths, names = t.resolve (Path.ofString p.text)

namespace GainsDirectories

variable {paths : List Path} {t'' : FileTree}

theorem refl (paths : List Path) (t : FileTree) : GainsDirectories paths t t :=
  ⟨rfl, fun _ => .inl rfl⟩

theorem trans (h : GainsDirectories paths t t') (h' : GainsDirectories paths t' t'') :
    GainsDirectories paths t t'' := by
  refine ⟨h'.workingDirectory.trans h.workingDirectory, fun names => ?_⟩
  rcases h.kindAt names with heq | ⟨hnone, hdirectory, hpath⟩
  · rcases h'.kindAt names with heq' | ⟨hnone', hdirectory', p, hp, hnames⟩
    · exact .inl (heq'.trans heq)
    · refine .inr ⟨heq ▸ hnone', hdirectory', p, hp, ?_⟩
      rw [hnames, resolve_congr h.workingDirectory]
  · refine .inr ⟨hnone, ?_, hpath⟩
    rcases h'.kindAt names with heq' | ⟨hnone', -⟩
    · exact heq'.trans hdirectory
    · rw [hdirectory] at hnone'
      cases hnone'

theorem mono {others : List Path} (h : GainsDirectories paths t t') (hsub : paths ⊆ others) :
    GainsDirectories others t t' := by
  refine ⟨h.workingDirectory, fun names => (h.kindAt names).imp_right ?_⟩
  rintro ⟨hnone, hdirectory, p, hp, hnames⟩
  exact ⟨hnone, hdirectory, p, hsub hp, hnames⟩

theorem of_makeDirectory {p : Path} (h : t.makeDirectory p.text = .ok t') (hp : p ∈ paths) :
    GainsDirectories paths t t' := by
  have hadds := addsDirectory_of_makeDirectory h
  refine ⟨hadds.workingDirectory, fun names => ?_⟩
  by_cases hnames : names = t.resolve (Path.ofString p.text)
  · refine .inr ⟨hnames ▸ hadds.absent, ?_, p, hp, hnames⟩
    rw [hadds.kindAt, if_pos hnames]
  · refine .inl ?_
    rw [hadds.kindAt, if_neg hnames]

end GainsDirectories

end FileTree

end EditList
