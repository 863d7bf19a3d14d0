import InlineMarkup.Proofs.Outputs

/-!
# InlineMarkup.Proofs.Failures

What failures leave behind.  A run is taken apart into steps, one for each source that is compiled,
with the tree before and after it (`Compile.stepsOf`).  Whatever keeps a run from coming to its
sources leaves no step and no change (`Compile.runInOrder_error`).  In a step, nothing is written
until the source was read and translated (`Compile.compileSource_eq`), so a source that fails
before that changes nothing (`Compile.Step.Clean`).  The other steps are made all the same, and the
run fares as the failing step that has the least number.
-/

namespace InlineMarkup.Compile

/-! ## Steps -/

/-- The compilation of a source, in the course of a run. -/
structure Step where
  /-- The source, and the path of its output. -/
  task : Task
  /-- Its number among the sources. -/
  number : Nat
  /-- The tree that it is compiled in. -/
  before : Tree
  /-- How it fares. -/
  result : Except Failure Unit
  /-- The tree that comes of it. -/
  after : Tree

/-- The steps in which numbered sources are compiled, in the order given. -/
def steps (config : Config) : List (Task × Nat) → Tree → List Step
  | [], _ => []
  | (task, number) :: rest, tree =>
    let made := (compileSource Tree.disk config task.1 task.2).run tree
    ⟨task, number, tree, made.1, made.2⟩ :: steps config rest made.2

/-- The steps of a run.  There are none if it does not come to its sources. -/
def stepsOf (schedule : Schedule) (options : Options) (tree : Tree) : List Step :=
  match Plan.of tree options with
  | .error _ => []
  | .ok plan => steps plan.config (schedule.order plan.tasks) tree

/-- Steps that lead from one tree to another: each begins where the one before it ends. -/
inductive Lead : Tree → List Step → Tree → Prop
  | nil (tree : Tree) : Lead tree [] tree
  | cons (step : Step) {rest : List Step} {last : Tree} (more : Lead step.after rest last) :
    Lead step.before (step :: rest) last

variable {config : Config} {tree : Tree} {order : List (Task × Nat)}

theorem tasks_steps (config : Config) (order : List (Task × Nat)) (tree : Tree) :
    (steps config order tree).map (fun step => (step.task, step.number)) = order := by
  induction order generalizing tree with
  | nil => rfl
  | cons entry rest ih => rw [steps, List.map_cons, ih]

theorem lead_steps (config : Config) (order : List (Task × Nat)) (tree : Tree) :
    Lead tree (steps config order tree) ((compileEach config order).run tree).2 := by
  induction order generalizing tree with
  | nil => exact .nil tree
  | cons entry rest ih =>
    obtain ⟨task, number⟩ := entry
    exact .cons ⟨task, number, tree, _, _⟩ (ih _)

theorem results_steps (config : Config) (order : List (Task × Nat)) (tree : Tree) :
    ((compileEach config order).run tree).1 =
      (steps config order tree).map fun step => (step.number, step.result) := by
  induction order generalizing tree with
  | nil => rfl
  | cons entry rest ih => exact congrArg (_ :: ·) (ih _)

theorem compileSource_of_mem_steps {step : Step} (mem : step ∈ steps config order tree) :
    (compileSource Tree.disk config step.task.1 step.task.2).run step.before =
      (step.result, step.after) := by
  induction order generalizing tree with
  | nil => contradiction
  | cons entry rest ih =>
    obtain rfl | later := List.mem_cons.1 mem
    · rfl
    · exact ih later

/-! ## One step -/

/-- What a step leaves of the tree, if it fails: all of it, unless it is the output that cannot be
written. -/
structure Step.Clean (config : Config) (step : Step) : Prop where
  overwriting : Path.same step.task.2 step.task.1.path →
    step.result = .error (.overwritesInput step.task.1.path) ∧ step.after = step.before
  unreadable : ¬ Path.same step.task.2 step.task.1.path →
    step.before.read? step.task.1.path = none →
    step.result = .error (.unreadable step.task.1.path) ∧ step.after = step.before
  faulty : ¬ Path.same step.task.2 step.task.1.path → ∀ text fault,
    step.before.read? step.task.1.path = some text →
    Translator.plain.translate config text = .error fault →
    step.result = .error (.faultyMarkup step.task.1.path fault) ∧ step.after = step.before
  other : ∀ failure, step.result = .error failure →
    step.after = step.before ∨ ∃ path, failure = .uncreatable path ∨ failure = .unwritable path

theorem placing_eq_error {output : String} {failure : Failure}
    (h : placing tree output = .error failure) :
    ∃ path, failure = .uncreatable path ∨ failure = .unwritable path := by
  unfold placing at h
  split at h
  · split at h
    · contradiction
    · cases h
      exact ⟨_, .inr rfl⟩
  · cases h
    exact ⟨_, .inl rfl⟩

theorem clean_of_compileSource {step : Step}
    (made : (compileSource Tree.disk config step.task.1 step.task.2).run step.before =
      (step.result, step.after)) : step.Clean config := by
  rw [compileSource_eq] at made
  -- Whatever goes wrong before there is code to write ends the step at once.
  have ends {failure : Failure} (h : prepared step.before config step.task = .error failure) :
      step.result = .error failure ∧ step.after = step.before := by
    rw [h] at made
    exact ⟨(Prod.mk.inj made).1.symm, (Prod.mk.inj made).2.symm⟩
  constructor
  · intro same
    exact ends (if_pos same)
  · intro differs unread
    refine ends ?_
    rw [prepared, if_neg differs, unread]
  · intro differs text fault read fails
    refine ends ?_
    rw [prepared, if_neg differs, read]
    simp [compileText, fails]
  · intro failure fails
    cases prepares : prepared step.before config step.task with
    | error cause => exact .inl (ends prepares).2
    | ok compiled =>
      rw [prepares] at made
      have fares := (writeOutput_run step.before step.task.2 compiled).1
      dsimp only at made
      rw [made] at fares
      exact .inr (placing_eq_error (fares.symm.trans fails))

/-! ## The first failure -/

theorem firstFailure_cons_of_not_error {result? : Nat → Option (Except Failure Unit)} {number : Nat}
    (fine : ∀ cause, result? number ≠ some (.error cause)) (numbers : List Nat) :
    firstFailure ((number :: numbers).filterMap result?) =
      firstFailure (numbers.filterMap result?) := by
  rw [List.filterMap_cons]
  cases result : result? number with
  | none => rfl
  | some fares =>
    cases fares with
    | error cause => exact absurd result (fine cause)
    | ok done => rfl

/-- Of numbered results, the failure with the least number counts. -/
theorem firstFailure_filterMap {result? : Nat → Option (Except Failure Unit)} {numbers : List Nat}
    (sorted : numbers.Pairwise (· < ·)) {failure : Failure} :
    firstFailure (numbers.filterMap result?) = .error failure ↔
      ∃ number ∈ numbers, result? number = some (.error failure) ∧
        ∀ earlier ∈ numbers, earlier < number → ∀ cause, result? earlier ≠ some (.error cause) := by
  induction numbers with
  | nil => simp [firstFailure]
  | cons first rest ih =>
    obtain ⟨least, sorted⟩ := List.pairwise_cons.1 sorted
    by_cases fails : ∃ cause, result? first = some (.error cause)
    · obtain ⟨cause, fails⟩ := fails
      rw [List.filterMap_cons_some fails, firstFailure]
      constructor
      · rintro ⟨⟩
        refine ⟨first, List.mem_cons_self, fails, fun earlier mem less => ?_⟩
        obtain rfl | later := List.mem_cons.1 mem
        · exact absurd less (Nat.lt_irrefl _)
        · exact absurd (least earlier later) (Nat.lt_asymm less)
      · rintro ⟨number, mem, result, fine⟩
        obtain rfl | later := List.mem_cons.1 mem
        · exact Option.some.inj (fails.symm.trans result)
        · exact absurd fails (fine first List.mem_cons_self (least number later) cause)
    · -- A number without a failure can neither be the least one nor keep another from being it.
      have fine := not_exists.1 fails
      rw [firstFailure_cons_of_not_error fine, ih sorted]
      constructor
      · rintro ⟨number, mem, result, others⟩
        refine ⟨number, List.mem_cons_of_mem _ mem, result, fun earlier inside less => ?_⟩
        obtain rfl | later := List.mem_cons.1 inside
        · exact fine
        · exact others earlier later less
      · rintro ⟨number, mem, result, others⟩
        obtain rfl | later := List.mem_cons.1 mem
        · exact absurd result (fine failure)
        · exact ⟨number, later, result, fun earlier inside =>
            others earlier (List.mem_cons_of_mem _ inside)⟩

/-- The results of steps, by their numbers. -/
theorem lookup_compileEach (config : Config) (schedule : Schedule) (tasks : List Task) (tree : Tree)
    (number : Nat) (result : Except Failure Unit) :
    ((compileEach config (schedule.order tasks)).run tree).1.lookup number = some result ↔
      ∃ step ∈ steps config (schedule.order tasks) tree,
        step.number = number ∧ step.result = result := by
  have distinct := schedule.nodup tasks
  rw [← numbers_compileEach config _ tree] at distinct
  rw [results_steps] at distinct ⊢
  constructor
  · intro found
    obtain ⟨before, after, split, -⟩ := List.lookup_eq_some_iff.1 found
    have mem : (number, result) ∈ before ++ (number, result) :: after :=
      List.mem_append_right _ List.mem_cons_self
    rw [← split] at mem
    obtain ⟨step, inside, same⟩ := List.mem_map.1 mem
    exact ⟨step, inside, Prod.mk.inj same⟩
  · rintro ⟨step, inside, rfl, rfl⟩
    exact lookup_eq_some distinct (List.mem_map_of_mem inside)

theorem number_lt_of_mem_steps {schedule : Schedule} {tasks : List Task} {step : Step}
    (mem : step ∈ steps config (schedule.order tasks) tree) : step.number < tasks.length := by
  have inside := List.mem_map_of_mem (f := fun step => (step.task, step.number)) mem
  rw [tasks_steps] at inside
  exact (List.getElem?_eq_some_iff.1 (schedule.mem_order.1 inside)).1

section

variable (config : Config) (schedule : Schedule) (tasks : List Task) (tree : Tree)

/-- Sources fail together as the first of them that fails does. -/
theorem firstFailure_steps (failure : Failure) :
    firstFailure (byNumber tasks.length
        ((compileEach config (schedule.order tasks)).run tree).1) = .error failure ↔
      ∃ step ∈ steps config (schedule.order tasks) tree, step.result = .error failure ∧
        ∀ other ∈ steps config (schedule.order tasks) tree, other.number < step.number →
          other.result = .ok () := by
  rw [byNumber, firstFailure_filterMap List.pairwise_lt_range]
  simp only [ne_eq, lookup_compileEach]
  constructor
  · rintro ⟨-, -, ⟨step, mem, rfl, fails⟩, others⟩
    refine ⟨step, mem, fails, fun other inside less => ?_⟩
    have fine := others other.number (List.mem_range.2 (number_lt_of_mem_steps inside)) less
    cases result : other.result with
    | ok done => rfl
    | error cause => exact absurd ⟨other, inside, rfl, result⟩ (fine cause)
  · rintro ⟨step, mem, fails, others⟩
    refine ⟨step.number, List.mem_range.2 (number_lt_of_mem_steps mem), ⟨step, mem, rfl, fails⟩, ?_⟩
    rintro - - less cause ⟨other, inside, rfl, result⟩
    rw [others other inside less] at result
    contradiction

/-- Sources fare well together if each of them does. -/
theorem firstFailure_steps_eq_ok :
    firstFailure (byNumber tasks.length
        ((compileEach config (schedule.order tasks)).run tree).1) = .ok () ↔
      ∀ step ∈ steps config (schedule.order tasks) tree, step.result = .ok () := by
  rw [firstFailure_eq_ok]
  simp only [byNumber, List.mem_filterMap, lookup_compileEach]
  constructor
  · intro fine step mem
    exact fine _ ⟨step.number, List.mem_range.2 (number_lt_of_mem_steps mem), step, mem, rfl, rfl⟩
  · rintro fine - ⟨-, -, step, mem, -, rfl⟩
    exact fine step mem

end

/-! ## Runs that come to nothing -/

theorem expanded_eq_ok (tree : Tree) {path : String} (there : tree.kind? path ≠ none) :
    ∃ sources, expanded tree path = .ok sources := by
  unfold expanded
  cases found : tree.kind? path with
  | none => exact absurd found there
  | some kind =>
    cases kind with
    | file => exact ⟨_, rfl⟩
    | directory => exact ⟨_, rfl⟩

theorem collected_eq_ok {paths : List String} (there : ∀ path ∈ paths, tree.kind? path ≠ none) :
    ∃ sources, collected tree paths = .ok sources := by
  induction paths with
  | nil => exact ⟨[], rfl⟩
  | cons path rest ih =>
    rw [List.forall_mem_cons] at there
    obtain ⟨sources, first⟩ := expanded_eq_ok tree there.1
    obtain ⟨others, later⟩ := ih there.2
    exact ⟨sources ++ others, by rw [collected, first, later]; rfl⟩

/-- The first path that leads nowhere is the one that is named. -/
theorem collected_eq_notFound {before : List String} {path : String} (rest : List String)
    (there : ∀ earlier ∈ before, tree.kind? earlier ≠ none) (missing : tree.kind? path = none) :
    collected tree (before ++ path :: rest) = .error (.notFound path) := by
  induction before with
  | nil =>
    rw [List.nil_append, collected, expanded, missing]
    rfl
  | cons first before ih =>
    rw [List.forall_mem_cons] at there
    obtain ⟨sources, found⟩ := expanded_eq_ok tree there.1
    rw [List.cons_append, collected, found, ih there.2]
    rfl

theorem stepsOf_eq_nil {options : Options} {failure : Failure}
    (planned : Plan.of tree options = .error failure) (schedule : Schedule) :
    stepsOf schedule options tree = [] := by
  rw [stepsOf, planned]

theorem stepsOf_eq {options : Options} {plan : Plan} (planned : Plan.of tree options = .ok plan)
    (schedule : Schedule) :
    stepsOf schedule options tree = steps plan.config (schedule.order plan.tasks) tree := by
  rw [stepsOf, planned]

theorem lead_stepsOf (schedule : Schedule) (options : Options) (tree : Tree) :
    Lead tree (stepsOf schedule options tree) ((runInOrder schedule options).run tree).2 := by
  cases planned : Plan.of tree options with
  | error failure =>
    rw [runInOrder_error planned, stepsOf_eq_nil planned]
    exact .nil tree
  | ok plan =>
    rw [runInOrder_run planned, stepsOf_eq planned]
    exact lead_steps plan.config (schedule.order plan.tasks) tree

theorem exists_withExtension? {extension : String} (whole : '/' ∉ extension.toList)
    (path : String) : ∃ output, Path.withExtension? path extension = some output := by
  unfold Path.withExtension?
  rw [if_neg (by simpa using whole)]
  split
  · exact ⟨_, rfl⟩
  · dsimp only
    split
    · exact ⟨_, rfl⟩
    · split
      · exact ⟨_, rfl⟩
      · exact ⟨_, rfl⟩

/-- Every source has an output, unless the extension of outputs holds a slash. -/
theorem exists_outputs {extension : String} (whole : '/' ∉ extension.toList)
    (directory : Option String) (sources : List Source) :
    ∃ outputs, sources.mapM (fun source => source.output? directory extension) = some outputs := by
  induction sources with
  | nil => exact ⟨[], rfl⟩
  | cons source rest ih =>
    obtain ⟨others, later⟩ := ih
    obtain ⟨output, first⟩ :
        ∃ output, source.output? directory extension = some output :=
      exists_withExtension? whole _
    exact ⟨output :: others, by rw [List.mapM_cons, first, later]; rfl⟩

/-- A run whose settings are read and whose paths lead somewhere comes to its sources, unless the
extension of outputs holds a slash. -/
theorem Plan.of_cases {options : Options} {settings : Settings}
    (set : settingsIn tree options.settings = .ok settings)
    (there : ∀ path ∈ options.paths, tree.kind? path ≠ none) :
    (∃ plan, Plan.of tree options = .ok plan) ∨
      '/' ∈ settings.output.extension.toList ∧
        Plan.of tree options = .error (.invalidExtension settings.output.extension) := by
  obtain ⟨sources, found⟩ := collected_eq_ok there
  unfold Plan.of
  rw [set, Outcome.ok_bind, found, Outcome.ok_bind]
  dsimp only
  split
  · next unnamed =>
    refine .inr ⟨?_, rfl⟩
    by_contra whole
    obtain ⟨outputs, named⟩ := exists_outputs whole _ sources
    rw [named] at unnamed
    contradiction
  · exact .inl ⟨_, rfl⟩

/-- What a run makes of its sources: each of them is compiled in a step of its own, and the run
fails as the first source that does. -/
structure Plan.Processed (plan : Plan) (steps : List Step) (result : Except Failure (List String)) :
    Prop where
  all : (steps.map fun step => (step.task, step.number)).Perm plan.tasks.zipIdx
  made : ∀ step ∈ steps, (compileSource Tree.disk plan.config step.task.1 step.task.2).run
    step.before = (step.result, step.after)
  clean : ∀ step ∈ steps, step.Clean plan.config
  fails : ∀ failure, result = .error failure ↔ ∃ step ∈ steps, step.result = .error failure ∧
    ∀ other ∈ steps, other.number < step.number → other.result = .ok ()
  succeeds : ∀ outputs, result = .ok outputs ↔
    outputs = plan.tasks.map Prod.snd ∧ ∀ step ∈ steps, step.result = .ok ()

theorem Plan.outcome_eq_error {plan : Plan} {results : List (Except Failure Unit)}
    {failure : Failure} :
    plan.outcome results = .error failure ↔ firstFailure results = .error failure := by
  unfold Plan.outcome
  cases firstFailure results with
  | error cause => simp
  | ok done => simp [pure, Except.pure]

theorem Plan.outcome_eq_ok {plan : Plan} {results : List (Except Failure Unit)}
    {outputs : List String} :
    plan.outcome results = .ok outputs ↔
      outputs = plan.tasks.map Prod.snd ∧ firstFailure results = .ok () := by
  unfold Plan.outcome
  cases firstFailure results with
  | error cause => simp
  | ok done => simp [pure, Except.pure, eq_comm]

theorem processed_of_plan {options : Options} {plan : Plan}
    (planned : Plan.of tree options = .ok plan) (schedule : Schedule) :
    plan.Processed (stepsOf schedule options tree) ((runInOrder schedule options).run tree).1 := by
  rw [stepsOf_eq planned, runInOrder_run planned]
  constructor
  · rw [tasks_steps]
    exact schedule.perm plan.tasks
  · exact fun step => compileSource_of_mem_steps
  · exact fun step mem => clean_of_compileSource (compileSource_of_mem_steps mem)
  · intro failure
    exact Plan.outcome_eq_error.trans (firstFailure_steps _ schedule _ tree failure)
  · intro outputs
    exact Plan.outcome_eq_ok.trans (and_congr_right' (firstFailure_steps_eq_ok _ schedule _ tree))

/-- **Failures leave the tree as it was.**  For every tree and whatever is asked, a run goes from
the tree to that which is left by its steps, in any order of the sources.  If the settings cannot be
read, or a path leads nowhere, the run fails so, with the first such path, and there is no step and
no change.  Otherwise every source has its step, and one that would be overwritten, cannot be read
or holds faulty markup fails and changes nothing in it; the run fails as the first source, in the
order in which they were found, that does. -/
theorem failures_leave_tree (schedule : Schedule) (options : Options) (tree : Tree) :
    (run Tree.disk options).run tree = (runInOrder .straight options).run tree ∧
    Lead tree (stepsOf schedule options tree) ((runInOrder schedule options).run tree).2 ∧
    (∀ failure, ((readSettings Tree.disk options.settings).run tree).1 = .error failure →
      (runInOrder schedule options).run tree = (.error failure, tree) ∧
        stepsOf schedule options tree = []) ∧
    ∀ settings, ((readSettings Tree.disk options.settings).run tree).1 = .ok settings →
      (∀ before path rest, options.paths = before ++ path :: rest →
        (∀ earlier ∈ before, tree.kind? earlier ≠ none) → tree.kind? path = none →
        (runInOrder schedule options).run tree = (.error (.notFound path), tree) ∧
          stepsOf schedule options tree = []) ∧
      ((∀ path ∈ options.paths, tree.kind? path ≠ none) →
        (∃ plan, Plan.of tree options = .ok plan ∧
          ((Source.collect Tree.disk options.paths).run tree).1 = .ok (plan.tasks.map Prod.fst) ∧
          plan.Processed (stepsOf schedule options tree)
            ((runInOrder schedule options).run tree).1) ∨
        '/' ∈ settings.output.extension.toList ∧
          (runInOrder schedule options).run tree =
            (.error (.invalidExtension settings.output.extension), tree) ∧
          stepsOf schedule options tree = []) := by
  have ends {failure : Failure} (planned : Plan.of tree options = .error failure) :
      (runInOrder schedule options).run tree = (.error failure, tree) ∧
        stepsOf schedule options tree = [] :=
    ⟨runInOrder_error planned schedule, stepsOf_eq_nil planned schedule⟩
  rw [readSettings_run, collect_run]
  refine ⟨run_eq_runInOrder options tree, lead_stepsOf schedule options tree, ?_, ?_⟩
  · intro failure fails
    exact ends (Outcome.bind_eq_error.2 (.inl fails))
  · intro settings (set : settingsIn tree options.settings = .ok settings)
    constructor
    · intro before path rest paths there missing
      refine ends ?_
      rw [Plan.of, set, Outcome.ok_bind, paths, collected_eq_notFound rest there missing]
      rfl
    · intro there
      obtain ⟨plan, planned⟩ | ⟨slash, planned⟩ := Plan.of_cases set there
      · have sources := (Plan.of_eq_ok planned).1
        exact .inl ⟨plan, planned, sources, processed_of_plan planned schedule⟩
      · exact .inr ⟨slash, ends planned⟩

/-- A source with faulty markup, one that would be overwritten, one that is no text, and one with
which nothing is wrong. -/
def mixedSources : Tree where
  working := ["work"]
  entries :=
    [(["work", "a.jsx"], .file (.text "y = <p")),
      (["work", "b.js"], .file (.text "x = <p/>")),
      (["work", "c.jsx"], .file (.binary [255])),
      (["work", "d.jsx"], .file (.text "x = <p/>"))]

/-- Of four sources the last is compiled, and the first is reported, though its step comes last; a
file that is no text cannot hold the settings; of two paths that lead nowhere the first is named. -/
theorem failures_leave_tree_mixed :
    let all := beside ["a.jsx", "b.js", "c.jsx", "d.jsx"] settingsFile true
    (runInOrder .backwards (beside ["d.jsx"] "c.jsx" true)).run mixedSources =
        (.error (.unreadable "c.jsx"), mixedSources) ∧
      (runInOrder .backwards (beside ["d.jsx", "e", "f"] settingsFile true)).run mixedSources =
        (.error (.notFound "e"), mixedSources) ∧
      (∃ plan : Plan, plan.tasks.map Prod.snd = ["a.js", "b.js", "c.js", "d.js"] ∧
        plan.Processed (stepsOf .backwards all mixedSources)
          ((runInOrder .backwards all).run mixedSources).1) ∧
      (Outcome.fault? ((runInOrder .backwards all).run mixedSources).1).map Failure.message =
        some "Failed to compile a.jsx" ∧
      ((runInOrder .backwards all).run mixedSources).2 =
        mixedSources.put ["work", "d.js"] (.file (.text "x = h('p', null)")) := by
  intro all
  have set : ((readSettings Tree.disk settingsFile).run mixedSources).1 = .ok .standard :=
    Outcome.eq_ok_of_toOption (by decide +kernel)
  obtain ⟨-, -, settings, -⟩ :=
    failures_leave_tree .backwards (beside ["d.jsx"] "c.jsx" true) mixedSources
  obtain ⟨-, -, -, paths⟩ :=
    failures_leave_tree .backwards (beside ["d.jsx", "e", "f"] settingsFile true) mixedSources
  obtain ⟨-, -, -, sources⟩ := failures_leave_tree .backwards all mixedSources
  have malformed := settings (.unreadable "c.jsx") (Outcome.eq_error_of_fault? (by decide +kernel))
  have missing := (paths .standard set).1 ["d.jsx"] "e" ["f"] rfl (by decide +kernel)
    (by decide +kernel)
  refine ⟨malformed.1, missing.1, ?_, by decide +kernel, by decide +kernel⟩
  obtain ⟨plan, planned, -, processed⟩ | ⟨slash, -⟩ :=
    (sources .standard set).2 (by decide +kernel)
  · have outputs : (Plan.of mixedSources all).toOption.map (fun plan => plan.tasks.map Prod.snd) =
        some ["a.js", "b.js", "c.js", "d.js"] := by
      decide +kernel
    rw [planned] at outputs
    exact ⟨plan, Option.some.inj outputs, processed⟩
  · exact absurd slash (by decide +kernel)

end InlineMarkup.Compile
