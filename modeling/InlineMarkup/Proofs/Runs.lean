import InlineMarkup.Proofs.Tasks

/-!
# InlineMarkup.Proofs.Runs

Runs of the compiler in which the sources are compiled in any order.  A run first
finds out what it has to do (`Compile.Plan`), and that changes nothing.  Then the
sources are compiled, each as a whole, in the order that a `Schedule` says, and the
run fares as the first source that fails, in the order in which they were found.
`Compile.run` is the run without reordering (`Compile.run_eq_runInOrder`).
-/

namespace InlineMarkup.Compile

/-! ## Plans -/

/-- What a run has to do: the sources to compile, and under which settings. -/
structure Plan where
  config : Config
  tasks : List Task
deriving DecidableEq

/-- The settings that a tree holds. -/
def settingsIn (tree : Tree) (path : String) : Except Failure Settings :=
  match tree.kind? path with
  | none => .ok .standard
  | some _ =>
    match tree.read? path with
    | none => .error (.unreadable path)
    | some text => settingsOf path text

/-- The sources that a path stands for in a tree. -/
def expanded (tree : Tree) (path : String) : Except Failure (List Source) :=
  match tree.kind? path with
  | some .file => .ok [⟨path, (Path.fileName? path).getD path⟩]
  | some .directory =>
    .ok ((((tree.files path).filter Source.wanted).mergeSort Source.namesLe).map
      (Source.ofNames path))
  | none => .error (.notFound path)

/-- The sources that paths stand for in a tree. -/
def collected (tree : Tree) : List String → Except Failure (List Source)
  | [] => .ok []
  | path :: rest => do
    let sources ← expanded tree path
    let others ← collected tree rest
    return sources ++ others

/-- What a run has to do in a tree. -/
def Plan.of (tree : Tree) (options : Options) : Except Failure Plan := do
  let settings ← settingsIn tree options.settings
  let sources ← collected tree options.paths
  let directory := options.outputDirectory <|> settings.output.directory
  let extension := settings.output.extension
  match sources.mapM fun source => source.output? directory extension with
  | none => .error (.invalidExtension extension)
  | some outputs => return ⟨effective options settings.config, sources.zip outputs⟩

/-- One action on a tree after another. -/
theorem run_bind {α β : Type} (first : StateM Tree α) (second : α → StateM Tree β) (tree : Tree) :
    (first >>= second).run tree = (second (first.run tree).1).run (first.run tree).2 := rfl

theorem kind?_run (tree : Tree) (path : String) :
    (Tree.disk.kind? path).run tree = (tree.kind? path, tree) := rfl

theorem read?_run (tree : Tree) (path : String) :
    (Tree.disk.read? path).run tree = (tree.read? path, tree) := rfl

theorem readSettings_run (tree : Tree) (path : String) :
    (readSettings Tree.disk path).run tree = (settingsIn tree path, tree) := by
  unfold readSettings settingsIn
  rw [run_bind, kind?_run]
  cases tree.kind? path with
  | none => rfl
  | some kind =>
    dsimp only
    rw [run_bind, read?_run]
    cases tree.read? path <;> rfl

theorem expand_run (tree : Tree) (path : String) :
    (Source.expand Tree.disk path).run tree = (expanded tree path, tree) := by
  unfold Source.expand expanded
  rw [run_bind, kind?_run]
  cases tree.kind? path with
  | none => rfl
  | some kind => cases kind <;> rfl

/-- Every source has the output that was found for it. -/
theorem zip_mapM {α β : Type} {f : α → Option β} {sources : List α} {outputs : List β}
    (h : sources.mapM f = some outputs) :
    (sources.zip outputs).map Prod.fst = sources ∧ (sources.zip outputs).map Prod.snd = outputs ∧
      ∀ pair ∈ sources.zip outputs, f pair.1 = some pair.2 := by
  induction sources generalizing outputs with
  | nil =>
    cases h
    simp
  | cons source rest ih =>
    rw [List.mapM_cons] at h
    obtain ⟨output, first, h⟩ := Option.bind_eq_some_iff.1 h
    obtain ⟨others, later, h⟩ := Option.bind_eq_some_iff.1 h
    cases h
    obtain ⟨firsts, seconds, each⟩ := ih later
    simp only [List.zip_cons_cons, List.map_cons, firsts, seconds, List.forall_mem_cons]
    exact ⟨trivial, trivial, first, each⟩

/-- The tasks of a run: every source that was found, with the output that it has. -/
theorem Plan.of_eq_ok {tree : Tree} {options : Options} {plan : Plan}
    (h : Plan.of tree options = .ok plan) :
    collected tree options.paths = .ok (plan.tasks.map Prod.fst) ∧
      ∃ directory extension, ∀ task ∈ plan.tasks,
        task.1.output? directory extension = some task.2 := by
  obtain ⟨settings, -, h⟩ := Outcome.bind_eq_ok.1 h
  obtain ⟨sources, found, h⟩ := Outcome.bind_eq_ok.1 h
  dsimp only at h
  split at h
  · contradiction
  · next outputs named =>
    cases h
    obtain ⟨firsts, -, each⟩ := zip_mapM named
    exact ⟨by rw [found, firsts], _, _, each⟩

/-- Finding the sources changes nothing. -/
theorem collect_run (tree : Tree) (paths : List String) :
    (Source.collect Tree.disk paths).run tree = (collected tree paths, tree) := by
  induction paths with
  | nil => rfl
  | cons path rest ih =>
    rw [Source.collect, collected, run_bind, expand_run]
    cases expanded tree path with
    | error failure => rfl
    | ok sources =>
      dsimp only
      rw [run_bind, ih]
      cases collected tree rest <;> rfl

/-! ## Schedules -/

/-- The order in which the sources are compiled.  Each has its number, so that it
is known which result is whose. -/
structure Schedule where
  order : List Task → List (Task × Nat)
  perm : ∀ tasks, (order tasks).Perm tasks.zipIdx

/-- One after the other, as they were found. -/
def Schedule.straight : Schedule := ⟨List.zipIdx, fun _ => .refl _⟩

/-- One after the other, the last one first. -/
def Schedule.backwards : Schedule :=
  ⟨fun tasks => tasks.zipIdx.reverse, fun _ => List.reverse_perm _⟩

/-- How sources fare together: as the first one that fails. -/
def firstFailure : List (Except Failure Unit) → Except Failure Unit
  | [] => .ok ()
  | .error failure :: _ => .error failure
  | .ok () :: rest => firstFailure rest

/-- The results of so many numbered sources, by their numbers. -/
def byNumber (count : Nat) (results : List (Nat × Except Failure Unit)) :
    List (Except Failure Unit) :=
  (List.range count).filterMap fun number => results.lookup number

/-- Compiles numbered sources in the order given. -/
def compileEach (config : Config) :
    List (Task × Nat) → StateM Tree (List (Nat × Except Failure Unit))
  | [] => return []
  | (task, number) :: rest => do
    let result ← compileSource Tree.disk config task.1 task.2
    return (number, result) :: (← compileEach config rest)

/-- What a run gives, from the results of its sources. -/
def Plan.outcome (plan : Plan) (results : List (Except Failure Unit)) :
    Except Failure (List String) := do
  firstFailure results
  return plan.tasks.map Prod.snd

/-- A run in which the sources are compiled in the order that a schedule says. -/
def runInOrder (schedule : Schedule) (options : Options) :
    StateM Tree (Except Failure (List String)) := do
  match Plan.of (← get) options with
  | .error failure => return .error failure
  | .ok plan =>
    let results ← compileEach plan.config (schedule.order plan.tasks)
    return plan.outcome (byNumber plan.tasks.length results)

theorem compileEach_cons (tree : Tree) (config : Config) (task : Task) (number : Nat)
    (rest : List (Task × Nat)) :
    (compileEach config ((task, number) :: rest)).run tree =
      let between := ((compileSource Tree.disk config task.1 task.2).run tree).2
      ((number, fate tree config task) :: ((compileEach config rest).run between).1,
        ((compileEach config rest).run between).2) := by
  rw [compileEach, run_bind, (compileSource_run tree config task).1]
  rfl

theorem compileEach_append (tree : Tree) (config : Config) (first second : List (Task × Nat)) :
    (compileEach config (first ++ second)).run tree =
      let start := (compileEach config first).run tree
      let rest := (compileEach config second).run start.2
      (start.1 ++ rest.1, rest.2) := by
  induction first generalizing tree with
  | nil => rfl
  | cons entry others ih =>
    obtain ⟨task, number⟩ := entry
    simp only [List.cons_append, compileEach_cons, ih]

theorem runInOrder_error {tree : Tree} {options : Options} {failure : Failure}
    (planned : Plan.of tree options = .error failure) (schedule : Schedule) :
    (runInOrder schedule options).run tree = (.error failure, tree) := by
  change (match Plan.of tree options with | .error _ => _ | .ok _ => _ : StateM Tree _).run tree = _
  rw [planned]
  rfl

theorem runInOrder_run {tree : Tree} {options : Options} {plan : Plan}
    (planned : Plan.of tree options = .ok plan) (schedule : Schedule) :
    (runInOrder schedule options).run tree =
      let each := (compileEach plan.config (schedule.order plan.tasks)).run tree
      (plan.outcome (byNumber plan.tasks.length each.1), each.2) := by
  change (match Plan.of tree options with | .error _ => _ | .ok _ => _ : StateM Tree _).run tree = _
  rw [planned]
  rfl

/-! ## Results -/

/-- What is listed under a key is found there, if no other entry has that key. -/
theorem lookup_eq_some {κ α : Type} [BEq κ] [LawfulBEq κ] {entries : List (κ × α)}
    (distinct : (entries.map Prod.fst).Nodup) {key : κ} {value : α}
    (mem : (key, value) ∈ entries) : entries.lookup key = some value := by
  induction entries with
  | nil => contradiction
  | cons first rest ih =>
    obtain ⟨other, old⟩ := first
    rw [List.map_cons, List.nodup_cons] at distinct
    obtain same | later := List.mem_cons.1 mem
    · cases same
      exact List.lookup_cons_self
    · have apart : (key == other) = false := by
        rw [beq_eq_false_iff_ne]
        rintro rfl
        exact distinct.1 (List.mem_map.2 ⟨_, later, rfl⟩)
      rw [List.lookup_cons, apart]
      exact ih distinct.2 later

/-- Numbered results, put in order. -/
theorem byNumber_eq {values : List (Except Failure Unit)}
    {results : List (Nat × Except Failure Unit)} (distinct : (results.map Prod.fst).Nodup)
    (each : ∀ number value, values[number]? = some value → (number, value) ∈ results) :
    byNumber values.length results = values := by
  have found : (List.range values.length).map (fun number => results.lookup number) =
      values.map some := by
    refine List.ext_getElem (by simp) fun number inside _ => ?_
    have bound : number < values.length := by simpa using inside
    rw [List.getElem_map, List.getElem_map, List.getElem_range]
    exact lookup_eq_some distinct (each _ _ (List.getElem?_eq_getElem bound))
  calc byNumber values.length results
      = ((List.range values.length).map fun number => results.lookup number).filterMap id := by
        rw [byNumber, List.filterMap_map, Function.id_comp]
    _ = values := by rw [found, List.filterMap_map, Function.id_comp, List.filterMap_some]

theorem numbers_compileEach (config : Config) (order : List (Task × Nat)) (tree : Tree) :
    ((compileEach config order).run tree).1.map Prod.fst = order.map Prod.snd := by
  induction order generalizing tree with
  | nil => rfl
  | cons first rest ih =>
    rw [compileEach_cons, List.map_cons, List.map_cons, ih]

/-- Sources fare well together if each of them does. -/
theorem firstFailure_eq_ok {results : List (Except Failure Unit)} :
    firstFailure results = .ok () ↔ ∀ result ∈ results, result = .ok () := by
  fun_induction firstFailure results with
  | case1 => simp
  | case2 => simp
  | case3 rest ih => simp [ih]

/-- Sources are never compiled twice. -/
theorem Schedule.nodup (schedule : Schedule) (tasks : List Task) :
    ((schedule.order tasks).map Prod.snd).Nodup := by
  rw [((schedule.perm tasks).map Prod.snd).nodup_iff]
  simp [List.zipIdx_map_snd, List.nodup_range']

theorem compileAll_run (config : Config) (tasks : List Task) (start : Nat) (tree : Tree) :
    (compileAll Tree.disk config tasks).run tree =
      let each := (compileEach config (tasks.zipIdx start)).run tree
      (firstFailure (each.1.map Prod.snd), each.2) := by
  induction tasks generalizing tree start with
  | nil => rfl
  | cons task rest ih =>
    rw [List.zipIdx_cons, compileEach_cons, compileAll, run_bind, run_bind,
      (compileSource_run tree config task).1, ih (start + 1)]
    dsimp only
    rw [List.map_cons]
    cases fate tree config task <;> rfl

/-- Results that are in order already. -/
theorem byNumber_of_range {results : List (Nat × Except Failure Unit)} {count : Nat}
    (numbers : results.map Prod.fst = List.range count) :
    byNumber count results = results.map Prod.snd := by
  have length : count = (results.map Prod.snd).length := by
    have := congrArg List.length numbers
    simpa using this.symm
  rw [length]
  refine byNumber_eq (by rw [numbers]; exact List.nodup_range) fun number value found => ?_
  rw [List.getElem?_map] at found
  obtain ⟨⟨own, result⟩, here, rfl⟩ := Option.map_eq_some_iff.1 found
  have same : (results.map Prod.fst)[number]? = some own := by
    rw [List.getElem?_map, here]
    rfl
  have own_eq : own = number := by
    rw [numbers] at same
    rw [List.getElem?_eq_some_iff] at same
    simpa using same.2.symm
  rw [← own_eq]
  exact List.mem_of_getElem? here

/-- A run is the run without reordering. -/
theorem run_eq_runInOrder (options : Options) (tree : Tree) :
    (run Tree.disk options).run tree = (runInOrder .straight options).run tree := by
  have started : (runInOrder .straight options).run tree =
      (match Plan.of tree options with
        | .error failure => (.error failure, tree)
        | .ok plan =>
          let all := (compileAll Tree.disk plan.config plan.tasks).run tree
          ((do all.1; return plan.tasks.map Prod.snd), all.2)) := by
    cases planned : Plan.of tree options with
    | error failure => rw [runInOrder_error planned]
    | ok plan =>
      have numbers := numbers_compileEach plan.config (plan.tasks.zipIdx 0) tree
      rw [List.zipIdx_map_snd, ← List.range_eq_range'] at numbers
      rw [runInOrder_run planned, Schedule.straight]
      dsimp only
      rw [compileAll_run _ _ 0, byNumber_of_range numbers]
      rfl
  rw [started, run, run_bind, readSettings_run]
  unfold Plan.of
  cases settingsIn tree options.settings with
  | error failure => rfl
  | ok settings =>
    dsimp only
    rw [run_bind, collect_run]
    cases collected tree options.paths with
    | error failure => rfl
    | ok sources =>
      dsimp only [Outcome.ok_bind]
      cases named : sources.mapM fun source =>
          source.output? (options.outputDirectory <|> settings.output.directory)
            settings.output.extension with
      | none => rfl
      | some outputs =>
        obtain ⟨-, seconds, -⟩ := zip_mapM named
        dsimp only [pure, Except.pure]
        rw [run_bind, seconds]
        cases ((compileAll Tree.disk (effective options settings.config)
          (sources.zip outputs)).run tree).1 <;> rfl

/-! ## What a run keeps -/

/-- Nothing is lost while sources are compiled, except for what outputs replace. -/
theorem grown_compileEach (config : Config) (order : List (Task × Nat)) (tree : Tree) :
    Grown tree ((compileEach config order).run tree).2 fun location =>
      ∃ entry ∈ order, location = tree.locate entry.1.2 ∧
        ¬ Path.same entry.1.2 entry.1.1.path := by
  induction order generalizing tree with
  | nil => exact .refl tree _
  | cons first rest ih =>
    rw [compileEach_cons]
    have own := grown_compileSource tree config first.1
    refine .trans (own.mono ?_) ((ih _).mono ?_)
    · rintro location replaced
      exact ⟨first, List.mem_cons_self, replaced⟩
    · rintro location ⟨entry, mem, replaced⟩
      rw [Tree.locate_congr own.home] at replaced
      exact ⟨entry, List.mem_cons_of_mem _ mem, replaced⟩

/-- The same for a whole run. -/
theorem grown_runInOrder (schedule : Schedule) (options : Options) (tree : Tree) :
    Grown tree ((runInOrder schedule options).run tree).2 fun location =>
      ∃ plan, Plan.of tree options = .ok plan ∧ ∃ task ∈ plan.tasks,
        location = tree.locate task.2 ∧ ¬ Path.same task.2 task.1.path := by
  cases planned : Plan.of tree options with
  | error failure =>
    rw [runInOrder_error planned]
    exact .refl tree _
  | ok plan =>
    rw [runInOrder_run planned]
    refine (grown_compileEach plan.config (schedule.order plan.tasks) tree).mono ?_
    rintro location ⟨entry, mem, replaced⟩
    have numbered := (schedule.perm plan.tasks).mem_iff.1 mem
    exact ⟨plan, rfl, entry.1, List.fst_mem_of_mem_zipIdx numbered, replaced⟩

end InlineMarkup.Compile
