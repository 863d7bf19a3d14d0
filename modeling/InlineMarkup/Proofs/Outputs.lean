import InlineMarkup.Proofs.Collecting

/-!
# InlineMarkup.Proofs.Outputs

What becomes of sources and outputs in the course of a run.  Files are told apart by where
they stand, whatever the paths that lead there.  A source is read from the tree in
which the run started, unless an output took its place before, and its own output stays
what it is, unless another one takes its place later (`Compile.read?_of_ok`).  A source whose
output has its own path is refused, so it takes no place at all.  Hence

* a run keeps every source that is found, unless an output with another path than that of its
  own source leads there (`Compile.file_kept`);
* a run that does not fail has written every output that shares its place with no
  other (`Compile.output_kept`).
-/

namespace InlineMarkup.Compile

/-! ## Sources -/

/-- A source is found as it was, as long as nothing takes its place. -/
theorem find?_source {tree other : Tree} {source : Source} {replaced : Location → Prop}
    (stands : source.StandsIn tree) (grown : Grown tree other replaced)
    (apart : ¬ replaced (tree.locate source.path)) :
    other.get? (tree.locate source.path) = tree.get? (tree.locate source.path) ∧
      other.find? source.path = tree.find? source.path := by
  obtain ⟨content, found⟩ := stands.found
  have reached := (tree.walk?_path source.path _).2 ⟨rfl, stands.through⟩
  have same := grown.get?_eq (by simp [found]) apart
  exact ⟨same, Tree.find?_congr reached grown.home (fun _ => grown.directory) same⟩

theorem read?_source {tree other : Tree} {source : Source} {replaced : Location → Prop}
    (stands : source.StandsIn tree) (grown : Grown tree other replaced)
    (apart : ¬ replaced (tree.locate source.path)) :
    other.read? source.path = tree.read? source.path := by
  rw [Tree.read?, Tree.read?, (find?_source stands grown apart).2]

/-- **A run keeps every source that is found**, if each output that leads to it has the path of
its own source: whatever the order in which the sources are compiled, and whether the run fails
or not.  Such an output is refused, since it would overwrite its own source. -/
theorem file_kept (schedule : Schedule) (options : Options) {tree : Tree}
    (formed : tree.WellFormed) {sources : List Source}
    (found : collected tree options.paths = .ok sources) {source : Source} (mem : source ∈ sources)
    (refused : ∀ plan, Plan.of tree options = .ok plan → ∀ task ∈ plan.tasks,
      tree.locate task.2 = tree.locate source.path → Path.same task.2 task.1.path) :
    let after := ((runInOrder schedule options).run tree).2
    ∃ content, tree.get? (tree.locate source.path) = some (.file content) ∧
      after.get? (tree.locate source.path) = some (.file content) ∧
      after.find? source.path = tree.find? source.path := by
  intro after
  have stands := standsIn_of_collected formed found source mem
  obtain ⟨content, file⟩ := stands.found
  obtain ⟨same, leads⟩ :=
    find?_source stands (grown_runInOrder schedule options tree) (fun replaced => by
      obtain ⟨plan, planned, task, inside, here, differs⟩ := replaced
      exact differs (refused plan planned task inside here.symm))
  exact ⟨content, file, same.trans file, leads⟩

/-- A file that has the extension of outputs already, and one that has not. -/
def mixedExtensions : Tree where
  working := ["home", "app"]
  entries :=
    [(["home", "app", "app.js"], .file (.text "x = <p/>")),
      (["home", "app", "view.jsx"], .file (.text "y = <q/>"))]

/-- Compiles files next to where they are. -/
def beside (paths : List String) (settings : String) (strict : Bool) : Options where
  paths := paths
  settings := settings
  outputDirectory := none
  element := none
  component := none
  text := none
  strict := strict

/-- A file that has the extension of outputs is given by three paths, and each time it is refused,
so it is kept; the other one is compiled. -/
theorem file_kept_mixedExtensions :
    let options := beside ["app.js", "view.jsx", "../app/app.js", "/home/app/app.js"] settingsFile
      false
    let result := (runInOrder .backwards options).run mixedExtensions
    (Outcome.fault? result.1).map Failure.message =
        some "Refusing to overwrite input app.js with its compiled output" ∧
      result.2.find? "app.js" =
        some (["home", "app", "app.js"], .file (.text "x = <p/>")) ∧
      result.2.read? "view.js" = some "y = h('q', null)" := by
  intro options result
  have sources : collected mixedExtensions options.paths =
      .ok [⟨"app.js", "app.js"⟩, ⟨"view.jsx", "view.jsx"⟩, ⟨"../app/app.js", "app.js"⟩,
        ⟨"/home/app/app.js", "app.js"⟩] := Outcome.eq_ok_of_toOption (by decide +kernel)
  have planned : Plan.of mixedExtensions options =
      .ok ⟨effective options Settings.standard.config,
        [(⟨"app.js", "app.js"⟩, "app.js"), (⟨"view.jsx", "view.jsx"⟩, "view.js"),
          (⟨"../app/app.js", "app.js"⟩, "../app/app.js"),
          (⟨"/home/app/app.js", "app.js"⟩, "/home/app/app.js")]⟩ :=
    Outcome.eq_ok_of_toOption (by decide +kernel)
  obtain ⟨-, -, -, kept⟩ := file_kept .backwards options
    (by decide +kernel : mixedExtensions.WellFormed) sources List.mem_cons_self
    (fun plan own => by
      cases planned.symm.trans own
      decide +kernel)
  exact ⟨by decide +kernel, kept.trans (by decide +kernel), by decide +kernel⟩

/-- Files that are compiled into a directory. -/
def into (directory : String) (paths : List String) (strict : Bool) : Options where
  paths := paths
  settings := settingsFile
  outputDirectory := some directory
  element := none
  component := none
  text := none
  strict := strict

/-- The path of an output is not compared with that of its source by where they
lead: a source that is compiled into its own directory is lost, and the run does not
fail. -/
theorem source_lost :
    let tree : Tree := ⟨["work"], [(["work", "app.js"], .file (.text "x = <p/>"))]⟩
    let options := into "." ["app.js"] false
    tree.WellFormed ∧
      (collected tree options.paths).toOption = some [⟨"app.js", "app.js"⟩] ∧
      tree.read? "app.js" = some "x = <p/>" ∧
      ((run Tree.disk options).run tree).1.toOption = some ["./app.js"] ∧
      ((run Tree.disk options).run tree).2.read? "app.js" = some "x = h('p', null)" := by
  decide +kernel

/-! ## Outputs -/

/-- An output that was written is read as it was written, as long as nothing takes its
place. -/
theorem read?_output {tree other : Tree} {config : Config} {task : Task} {text : String}
    {replaced : Location → Prop} (given : written? tree config task = some text)
    (grown : Grown ((compileSource Tree.disk config task.1 task.2).run tree).2 other replaced)
    (apart : ¬ replaced (tree.locate task.2)) : other.read? task.2 = some text := by
  obtain ⟨named, -, -⟩ := placed_sound (written?_eq_some.1 given).2
  have written := get?_output given
  have home := grown.home.trans (working_compileSource tree config task)
  refine Tree.read?_eq_some named ?_ ?_
  · rw [Tree.wayTo_congr home]
    exact fun passed mem => grown.directory (get?_wayTo given _ mem)
  · rw [Tree.locate_congr home, grown.get?_eq (by simp [written]) apart, written]

/-- What a source that is compiled without failure leaves behind, if no other output has
its place or that of its output. -/
theorem read?_of_ok {config : Config} {order : List (Task × Nat)} {tree : Tree} {task : Task}
    {number : Nat} (distinct : (order.map Prod.snd).Nodup) (mem : (task, number) ∈ order)
    (stands : task.1.StandsIn tree)
    (apart : ∀ other ∈ order, other.2 ≠ number →
      tree.locate other.1.2 ≠ tree.locate task.2 ∧
        tree.locate other.1.2 ≠ tree.locate task.1.path)
    (fares : (number, .ok ()) ∈ ((compileEach config order).run tree).1) :
    ∃ text compiled, tree.read? task.1.path = some text ∧
      Translator.plain.translate config text = .ok compiled ∧
      ((compileEach config order).run tree).2.read? task.2 = some compiled := by
  have numbers := numbers_compileEach config order tree
  obtain ⟨first, rest, rfl⟩ := List.append_of_mem mem
  simp only [compileEach_append, compileEach_cons] at fares numbers ⊢
  have grown := grown_compileEach config first tree
  generalize ((compileEach config first).run tree).2 = between at *
  have locates := Tree.locate_congr grown.home
  -- Every other source has another number, and so another place.
  have others : ∀ other ∈ first ++ rest, other.2 ≠ number := by
    rintro other inside rfl
    have distinct' := (List.perm_middle.map Prod.snd).nodup_iff.1 distinct
    rw [List.map_cons, List.nodup_cons] at distinct'
    exact distinct'.1 (List.mem_map.2 ⟨other, inside, rfl⟩)
  have apart' : ∀ other ∈ first ++ rest, tree.locate other.1.2 ≠ tree.locate task.2 ∧
      tree.locate other.1.2 ≠ tree.locate task.1.path := by
    intro other inside
    refine apart other ?_ (others other inside)
    obtain before | after := List.mem_append.1 inside
    · exact List.mem_append_left _ before
    · exact List.mem_append_right _ (List.mem_cons_of_mem _ after)
  have done : fate between config task = .ok () := by
    have distinct' := numbers ▸ distinct
    have own := lookup_eq_some distinct' (List.mem_append_right _ List.mem_cons_self)
    exact Option.some.inj (own.symm.trans (lookup_eq_some distinct' fares))
  obtain ⟨compiled, given⟩ := fate_eq_ok.1 done
  obtain ⟨text, read, translated⟩ := prepared_eq_ok (written?_eq_some.1 given).1
  refine ⟨text, compiled, ?_, translated, ?_⟩
  · rw [← read, read?_source stands grown]
    rintro ⟨other, inside, same, -⟩
    exact (apart' other (List.mem_append_left _ inside)).2 same.symm
  · refine read?_output given (grown_compileEach config rest _) ?_
    rintro ⟨other, inside, same, -⟩
    rw [Tree.locate_congr (working_compileSource between config task), locates] at same
    exact (apart' other (List.mem_append_right _ inside)).1 same.symm

/-- No other output has the place of a source or that of its output. -/
def Plan.Alone (plan : Plan) (tree : Tree) (number : Nat) (task : Task) : Prop :=
  ∀ (number' : Nat) (other : Task), number' ≠ number → plan.tasks[number']? = some other →
    tree.locate other.2 ≠ tree.locate task.2 ∧ tree.locate other.2 ≠ tree.locate task.1.path

theorem Schedule.mem_order (schedule : Schedule) {tasks : List Task} {task : Task} {number : Nat} :
    (task, number) ∈ schedule.order tasks ↔ tasks[number]? = some task := by
  rw [(schedule.perm tasks).mem_iff, List.mk_mem_zipIdx_iff_getElem?]

/-- In a run that does not fail no source does. -/
theorem fares_of_ok {config : Config} {schedule : Schedule} {tasks : List Task} {tree : Tree}
    (fares : firstFailure (byNumber tasks.length
      ((compileEach config (schedule.order tasks)).run tree).1) = .ok ())
    {number : Nat} {task : Task} (here : tasks[number]? = some task) :
    (number, .ok ()) ∈ ((compileEach config (schedule.order tasks)).run tree).1 := by
  have numbers := numbers_compileEach config (schedule.order tasks) tree
  have mem : number ∈ ((compileEach config (schedule.order tasks)).run tree).1.map Prod.fst := by
    rw [numbers]
    exact List.mem_map.2 ⟨(task, number), schedule.mem_order.2 here, rfl⟩
  obtain ⟨⟨own, result⟩, inside, rfl⟩ := List.mem_map.1 mem
  have found := lookup_eq_some (numbers ▸ schedule.nodup tasks) inside
  have bound : own < tasks.length := (List.getElem?_eq_some_iff.1 here).1
  have listed : result ∈ byNumber tasks.length
      ((compileEach config (schedule.order tasks)).run tree).1 :=
    List.mem_filterMap.2 ⟨own, List.mem_range.2 bound, found⟩
  rwa [firstFailure_eq_ok.1 fares result listed] at inside

/-- **A run that does not fail has an output for every source, and loses none that has
its place for itself**: it holds the translation of what the source held before the run,
whatever the order in which the sources are compiled. -/
theorem output_kept (schedule : Schedule) (options : Options) {tree after : Tree}
    (formed : tree.WellFormed) {outputs : List String}
    (h : (runInOrder schedule options).run tree = (.ok outputs, after)) :
    ∃ plan, Plan.of tree options = .ok plan ∧
      collected tree options.paths = .ok (plan.tasks.map Prod.fst) ∧
      outputs = plan.tasks.map Prod.snd ∧
      ∀ number task, plan.tasks[number]? = some task → plan.Alone tree number task →
        ∃ text compiled, tree.read? task.1.path = some text ∧
          Translator.plain.translate plan.config text = .ok compiled ∧
          after.read? task.2 = some compiled := by
  cases planned : Plan.of tree options with
  | error failure =>
    rw [runInOrder_error planned] at h
    cases h
  | ok plan =>
    rw [runInOrder_run planned] at h
    obtain ⟨result, rfl⟩ := Prod.mk.inj h
    obtain ⟨⟨⟩, fares, same⟩ := Outcome.bind_eq_ok.1 result
    cases same
    obtain ⟨found, -⟩ := Plan.of_eq_ok planned
    refine ⟨plan, rfl, found, rfl, fun number task here alone => ?_⟩
    have stands := standsIn_of_collected formed found task.1
      (List.mem_map_of_mem (List.mem_of_getElem? here))
    refine read?_of_ok (schedule.nodup plan.tasks) (schedule.mem_order.2 here) stands ?_
      (fares_of_ok fares here)
    intro other inside differs
    exact alone other.2 other.1 differs (schedule.mem_order.1 inside)

/-- Two sources in a directory.  The second one is faulty. -/
def twoSources : Tree where
  working := ["home", "app"]
  entries :=
    [(["home", "app", "src"], .directory),
      (["home", "app", "src", "a.jsx"], .file (.text "x = <p/>")),
      (["home", "app", "src", "b.jsx"], .file (.text "y = <p"))]

/-- Compiles these two sources into another directory, which is given by its path from
the root. -/
def twoInto (strict : Bool) : Options :=
  into "/home/app/dist" ["src/a.jsx", "../app/src/b.jsx"] strict

/-- What there is to do for these two sources. -/
theorem plan_twoSources (strict : Bool) :
    Plan.of twoSources (twoInto strict) =
      .ok ⟨effective (twoInto strict) Settings.standard.config,
        [(⟨"src/a.jsx", "a.jsx"⟩, "/home/app/dist/a.js"),
          (⟨"../app/src/b.jsx", "b.jsx"⟩, "/home/app/dist/b.js")]⟩ := by
  cases strict <;> exact Outcome.eq_ok_of_toOption (by decide +kernel)

/-- Two sources, the last one compiled first. -/
theorem output_kept_twoSources :
    ∃ text compiled, twoSources.read? "src/a.jsx" = some text ∧
      Translator.plain.translate (effective (twoInto false) Settings.standard.config)
        text = .ok compiled ∧
      ((runInOrder .backwards (twoInto false)).run twoSources).2.read? "/home/app/dist/a.js" =
        some compiled := by
  have done : ((runInOrder .backwards (twoInto false)).run twoSources).1 =
      .ok ["/home/app/dist/a.js", "/home/app/dist/b.js"] :=
    Outcome.eq_ok_of_toOption (by decide +kernel)
  obtain ⟨plan, planned, -, -, each⟩ := output_kept .backwards (twoInto false)
    (by decide +kernel : twoSources.WellFormed) (Prod.ext done rfl)
  cases (plan_twoSources false).symm.trans planned
  refine each 0 (⟨"src/a.jsx", "a.jsx"⟩, "/home/app/dist/a.js") rfl fun number other differs here =>
    ?_
  match number with
  | 1 =>
    cases here
    decide +kernel
  | number + 2 => cases here

/-- Outputs are not compared with each other: of two sources with the same name, from
different directories, one is lost in the output directory, and the run does not fail. -/
theorem result_lost :
    let tree : Tree :=
      ⟨["work"],
        [(["work", "a"], .directory),
          (["work", "a", "x.jsx"], .file (.text "x = <p/>")),
          (["work", "b"], .directory),
          (["work", "b", "x.jsx"], .file (.text "x = <q/>"))]⟩
    let options := into "dist" ["a/x.jsx", "b/x.jsx"] false
    tree.WellFormed ∧
      (collected tree options.paths).toOption =
        some [⟨"a/x.jsx", "x.jsx"⟩, ⟨"b/x.jsx", "x.jsx"⟩] ∧
      ((run Tree.disk options).run tree).1.toOption = some ["dist/x.js", "dist/x.js"] ∧
      (Translator.plain.translate (effective options Settings.standard.config)
        "x = <p/>").toOption = some "x = h('p', null)" ∧
      ((run Tree.disk options).run tree).2.read? "dist/x.js" = some "x = h('q', null)" := by
  decide +kernel

end InlineMarkup.Compile
