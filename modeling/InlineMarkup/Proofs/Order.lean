import InlineMarkup.Proofs.Outputs

/-!
# InlineMarkup.Proofs.Order

Sources whose outputs keep out of each other's way can be compiled in any order.  An output
that can be written stands on the way to no other output (`Compile.clear_of_apart`), so no
source is noticed by another one.  The tree between two of them is therefore the one in
which the run started, together with what each source so far would have put there if it had
been the only one (`Compile.Merged`).  That is kept by every source (`Compile.Merged.step`), so
it holds of every run, and it says the same whatever the order
(`Compile.order_irrelevant`).
-/

namespace InlineMarkup

/-- One location is above another one. -/
def Location.Above (location other : Location) : Prop :=
  location <+: other ∧ location ≠ other

instance (location other : Location) : Decidable (location.Above other) :=
  inferInstanceAs (Decidable (_ ∧ _))

theorem Location.above_append (location : Location) {rest : List String} (some : rest ≠ []) :
    location.Above (location ++ rest) :=
  ⟨List.prefix_append location rest, by simpa using some.symm⟩

namespace Compile

/-! ## Ways that do not meet -/

/-- Outputs keep out of each other's way: no two of them have the same place, none has the
place of a source, and none is above another one. -/
@[mk_iff]
structure Plan.Apart (plan : Plan) (tree : Tree) : Prop where
  distinct : (plan.tasks.map fun task => tree.locate task.2).Nodup
  sources : ∀ task ∈ plan.tasks, ∀ other ∈ plan.tasks,
    tree.locate task.2 ≠ tree.locate other.1.path
  nested : ∀ task ∈ plan.tasks, ∀ other ∈ plan.tasks,
    ¬ (tree.locate task.2).Above (tree.locate other.2)

instance (plan : Plan) (tree : Tree) : Decidable (plan.Apart tree) :=
  decidable_of_iff _ (Plan.apart_iff plan tree).symm

variable {tree : Tree}

/-- An output next to its source is in the same directory. -/
theorem wayTo_beside {source : Source} {extension output : String}
    (stands : source.StandsIn tree) (h : source.output? none extension = some output) :
    tree.wayTo output = tree.wayTo source.path := by
  obtain ⟨⟨before, name⟩, cut⟩ := Option.isSome_iff_exists.1 stands.named
  obtain ⟨-, -, -, own⟩ := Path.components_cutName? cut
  obtain ⟨last, whole, -⟩ := Path.components_withExtension? cut stands.file h
  rw [tree.wayTo_eq whole, tree.wayTo_eq own]

/-- An output below a directory is where names lead from there. -/
theorem wayTo_below {source : Source} {directory extension output : String}
    (stands : source.StandsIn tree) (h : source.output? (some directory) extension = some output) :
    ∃ names own,
      tree.wayTo output = tree.working.way (Path.components directory) ++
        (tree.locate directory).way (names.map .name) ∧
      tree.locate output = Location.follow (tree.locate directory ++ names) own ∧
      (own = .up ∨ ∃ name, own = .name name) := by
  obtain ⟨names, last, relative, isName⟩ := stands.relative
  rw [Source.output?, relative] at h
  obtain ⟨own, whole, kind⟩ := Path.components_output isName h
  refine ⟨names, own, ?_, ?_, kind⟩
  · rw [tree.wayTo_eq whole, Location.way_append]
    rfl
  · rw [Tree.locate, whole, List.foldl_append, List.foldl_append, ← Tree.locate,
      Location.foldl_follow_names]
    rfl

/-- An output that can be written is not on the way to another one. -/
theorem clear_of_apart {directory : Option String} {extension : String} {task other : Task}
    (stands : task.1.StandsIn tree) (stands' : other.1.StandsIn tree)
    (output : task.1.output? directory extension = some task.2)
    (output' : other.1.output? directory extension = some other.2)
    (distinct : tree.locate task.2 ≠ tree.locate other.2)
    (above : ¬ (tree.locate task.2).Above (tree.locate other.2))
    (below : ¬ (tree.locate other.2).Above (tree.locate task.2))
    (free : placed tree task.2 = true) :
    tree.locate task.2 ∉ tree.wayTo other.2 := by
  obtain ⟨-, outside, noDirectory⟩ := placed_sound free
  intro mem
  cases directory with
  | none =>
    -- The way leads through directories that are there already.
    rw [wayTo_beside stands' output'] at mem
    exact noDirectory (stands'.through _ mem)
  | some directory =>
    obtain ⟨_, _, way, -, -⟩ := wayTo_below stands output
    obtain ⟨names, own, way', place, kind⟩ := wayTo_below stands' output'
    rw [way'] at mem
    obtain shared | later := List.mem_append.1 mem
    · rw [way] at outside
      exact outside (List.mem_append_left _ shared)
    -- Beyond the output directory the way leads down only, and names end it.
    obtain ⟨first, rest, rfl, some, here⟩ := Location.mem_way_names later
    generalize tree.locate directory = base at *
    rw [here] at distinct above below
    obtain rfl | ⟨name, rfl⟩ := kind
    · rw [Location.follow] at place
      rw [place] at distinct above below
      obtain rfl | ⟨rest, last, rfl⟩ := List.eq_nil_or_concat' rest
      · obtain rfl | ⟨first, last, rfl⟩ := List.eq_nil_or_concat' first
        · contradiction
        · refine below ?_
          simpa [← List.append_assoc] using
            Location.above_append (base ++ first) (List.cons_ne_nil last [])
      · simp only [← List.append_assoc, List.dropLast_concat] at distinct above
        obtain rfl | more := eq_or_ne rest []
        · simp at distinct
        · exact above (Location.above_append (base ++ first) more)
    · rw [place] at above
      refine above ?_
      simpa [Location.follow] using
        Location.above_append (base ++ first) (List.append_ne_nil_of_right_ne_nil rest
          (List.cons_ne_nil name []))

/-- A source is not noticed by another one. -/
structure Unnoticed (tree : Tree) (task other : Task) : Prop where
  output : tree.locate task.2 ≠ tree.locate other.2
  source : tree.locate task.2 ≠ tree.locate other.1.path
  clear : placed tree task.2 = true → tree.locate task.2 ∉ tree.wayTo other.2

theorem unnoticed_of_apart (formed : tree.WellFormed) {options : Options} {plan : Plan}
    (planned : Plan.of tree options = .ok plan) (apart : plan.Apart tree) :
    plan.tasks.Pairwise fun task other =>
      Unnoticed tree task other ∧ Unnoticed tree other task := by
  obtain ⟨found, directory, extension, outputs⟩ := Plan.of_eq_ok planned
  have stands (task : Task) (mem : task ∈ plan.tasks) : task.1.StandsIn tree :=
    standsIn_of_collected formed found task.1 (List.mem_map_of_mem mem)
  have unnoticed {task other : Task} (mem : task ∈ plan.tasks) (mem' : other ∈ plan.tasks)
      (distinct : tree.locate task.2 ≠ tree.locate other.2) : Unnoticed tree task other :=
    ⟨distinct, apart.sources task mem other mem',
      clear_of_apart (stands task mem) (stands other mem') (outputs task mem)
        (outputs other mem') distinct (apart.nested task mem other mem')
        (apart.nested other mem' task mem)⟩
  refine (List.pairwise_map.1 apart.distinct).imp_of_mem ?_
  intro task other mem mem' distinct
  exact ⟨unnoticed mem mem' distinct, unnoticed mem' mem distinct.symm⟩

/-! ## Trees in the course of a run -/

/-- A tree in which some sources were compiled, each as if it had been the only one. -/
structure Merged (tree : Tree) (config : Config) (done : List Task) (other : Tree) : Prop where
  home : other.working = tree.working
  changed : ∀ task ∈ done, ∀ location entry, change? tree config task location = some entry →
    other.get? location = some entry
  kept : ∀ location, (∀ task ∈ done, change? tree config task location = none) →
    other.get? location = tree.get? location

theorem passable_of_mem_madeFor {config : Config} {task : Task} {location : Location}
    (mem : location ∈ madeFor tree config task) : tree.passable location = true := by
  unfold madeFor at mem
  split at mem
  · unfold made at mem
    split at mem
    · exact List.all_eq_true.1 List.all_takeWhile _ mem
    · contradiction
  · contradiction

theorem takeWhile_congr {α : Type} {p q : α → Bool} {entries : List α}
    (same : ∀ entry ∈ entries, p entry = q entry) : entries.takeWhile p = entries.takeWhile q := by
  induction entries with
  | nil => rfl
  | cons entry rest ih =>
    obtain ⟨first, later⟩ := List.forall_mem_cons.1 same
    rw [List.takeWhile_cons, List.takeWhile_cons, first, ih later]

namespace Merged

variable {config : Config} {done : List Task} {between other : Tree} {task : Task}

theorem nil (tree : Tree) (config : Config) : Merged tree config [] tree :=
  ⟨rfl, fun _ mem => by contradiction, fun _ _ => rfl⟩

/-- What stands at a location was put there by a source, or was there before. -/
theorem cases (merged : Merged tree config done between) (location : Location) :
    (∃ task ∈ done, ∃ entry, change? tree config task location = some entry ∧
      between.get? location = some entry) ∨
    (∀ task ∈ done, change? tree config task location = none) ∧
      between.get? location = tree.get? location := by
  by_cases some : ∃ task ∈ done, change? tree config task location ≠ none
  · obtain ⟨task, mem, change⟩ := some
    obtain ⟨entry, change⟩ := Option.ne_none_iff_exists'.1 change
    exact .inl ⟨task, mem, entry, change, merged.changed task mem location entry change⟩
  · have none : ∀ task ∈ done, change? tree config task location = none := by simpa using some
    exact .inr ⟨none, merged.kept location none⟩

/-- What is merged is the same, whatever the order. -/
theorem get?_eq (merged : Merged tree config done between) (merged' : Merged tree config done other)
    (location : Location) : between.get? location = other.get? location := by
  obtain ⟨task, mem, entry, change, now⟩ | ⟨none, same⟩ := merged.cases location
  · rw [now, merged'.changed task mem location entry change]
  · rw [same, merged'.kept location none]

theorem perm {done' : List Task} (merged : Merged tree config done between)
    (perm : done.Perm done') : Merged tree config done' between :=
  ⟨merged.home, fun task mem => merged.changed task (perm.mem_iff.2 mem),
    fun location none => merged.kept location fun task mem => none task (perm.mem_iff.1 mem)⟩

/-- Nothing is lost, except for what outputs replace. -/
theorem grown (merged : Merged tree config done between) :
    Grown tree between fun location => ∃ task ∈ done, location = tree.locate task.2 := by
  refine ⟨merged.home, fun location entry found => ?_⟩
  obtain ⟨task, mem, own, change, now⟩ | ⟨-, same⟩ := merged.cases location
  · obtain ⟨here, file, file'⟩ := change?_replaces change found
    exact .inr ⟨⟨task, mem, here⟩, file, by simpa [now] using file', by simp [now]⟩
  · exact .inl (same.trans found)

/-- Every output is read as it was written. -/
theorem read?_output (merged : Merged tree config done between) (mem : task ∈ done) {text : String}
    (given : written? tree config task = some text) : between.read? task.2 = some text := by
  obtain ⟨named, -, -⟩ := placed_sound (written?_eq_some.1 given).2
  have found := change?_eq_some.2 (.inl ⟨text, given, rfl, rfl⟩)
  refine Tree.read?_eq_some named (fun passed inside => ?_)
    (Tree.locate_congr merged.home ▸ merged.changed task mem _ _ found)
  rw [Tree.wayTo_congr merged.home] at inside
  have alone := get?_wayTo given passed inside
  rw [(compileSource_run tree config task).2] at alone
  cases change : change? tree config task passed with
  | none =>
    rw [change, Option.none_or] at alone
    exact merged.grown.directory alone
  | some entry =>
    rw [change, Option.some_or] at alone
    rw [merged.changed task mem passed entry change, alone]

/-! ### What a further source finds -/

variable (merged : Merged tree config done between)
  (unnoticed : ∀ other ∈ done, Unnoticed tree task other ∧ Unnoticed tree other task)

include merged unnoticed

/-- On the way to an output, a directory may have been made in the meantime, but nothing
else has changed. -/
theorem get?_wayTo {location : Location} (mem : location ∈ tree.wayTo task.2) :
    between.get? location = tree.get? location ∨
      tree.get? location = none ∧ tree.passable location = true ∧
        between.get? location = some .directory := by
  obtain ⟨other, inside, entry, change, now⟩ | ⟨-, same⟩ := merged.cases location
  · obtain ⟨text, given, rfl, -⟩ | ⟨rfl, missing, made⟩ := change?_eq_some.1 change
    · exact absurd mem ((unnoticed other inside).2.clear (written?_eq_some.1 given).2)
    · exact .inr ⟨missing, passable_of_mem_madeFor made, now⟩
  · exact .inl same

theorem passable_eq :
    ∀ location ∈ tree.wayTo task.2, between.passable location = tree.passable location := by
  intro location mem
  obtain same | ⟨-, passable, now⟩ := merged.get?_wayTo unnoticed mem
  · rw [Tree.passable, Tree.passable, same]
  · rw [passable, Tree.passable, now]

theorem made_eq : made between task.2 = made tree task.2 := by
  rw [made, made, Tree.wayTo_congr merged.home, takeWhile_congr (merged.passable_eq unnoticed)]

theorem wayFree_eq : wayFree between task.2 = wayFree tree task.2 := by
  have same : (tree.wayTo task.2).all between.passable = (tree.wayTo task.2).all tree.passable := by
    rw [Bool.eq_iff_iff, List.all_eq_true, List.all_eq_true]
    exact forall₂_congr fun location mem => by rw [merged.passable_eq unnoticed location mem]
  rw [wayFree, wayFree, Tree.wayTo_congr merged.home, same]

omit merged in
/-- Where an output can be written, no other source puts anything. -/
theorem change?_locate (free : placed tree task.2 = true) :
    ∀ other ∈ done, change? tree config other (tree.locate task.2) = none := by
  intro other inside
  have apart := (unnoticed other inside).1
  refine Option.eq_none_iff_forall_ne_some.2 fun entry change => ?_
  obtain ⟨-, -, same, -⟩ | ⟨-, -, made⟩ := change?_eq_some.1 change
  · exact apart.output same
  · exact apart.clear free (madeFor_subset tree config other made)

theorem spotFree_eq (free : wayFree tree task.2 = true) :
    spotFree between task.2 = spotFree tree task.2 := by
  rw [Bool.eq_iff_iff, spotFree, Tree.locate_congr merged.home, Tree.wayTo_congr merged.home]
  constructor
  · intro spot
    simp only [spotFree, Bool.and_eq_true, bne_iff_ne] at spot ⊢
    exact ⟨spot.1, fun found => spot.2 (merged.grown.directory found)⟩
  · intro spot
    have free' : placed tree task.2 = true := by rw [placed, free, spot]; rfl
    rwa [merged.kept _ (change?_locate unnoticed free')]

theorem placing_eq : placing between task.2 = placing tree task.2 := by
  rw [placing, placing, merged.wayFree_eq unnoticed]
  split
  · next free => rw [merged.spotFree_eq unnoticed free]
  · rfl

theorem prepared_eq (stands : task.1.StandsIn tree) :
    prepared between config task = prepared tree config task := by
  have same : between.read? task.1.path = tree.read? task.1.path := by
    refine read?_source stands merged.grown ?_
    rintro ⟨other, inside, same⟩
    exact (unnoticed other inside).2.source same.symm
  rw [prepared, prepared, same]

theorem fate_eq (stands : task.1.StandsIn tree) :
    fate between config task = fate tree config task := by
  rw [fate, fate, merged.prepared_eq unnoticed stands, merged.placing_eq unnoticed]

theorem written?_eq (stands : task.1.StandsIn tree) :
    written? between config task = written? tree config task := by
  have same : placed between task.2 = placed tree task.2 := by
    rw [Bool.eq_iff_iff, ← placing_eq_ok, ← placing_eq_ok, merged.placing_eq unnoticed]
  rw [written?, written?, merged.prepared_eq unnoticed stands, same]

theorem madeFor_eq (stands : task.1.StandsIn tree) :
    madeFor between config task = madeFor tree config task := by
  rw [madeFor, madeFor, merged.prepared_eq unnoticed stands, merged.made_eq unnoticed]

/-- Nothing is put anywhere that would not be put there without the other sources. -/
theorem change?_of_between (stands : task.1.StandsIn tree) {location : Location} {entry : Entry}
    (change : change? between config task location = some entry) :
    change? tree config task location = some entry := by
  rw [change?_eq_some, merged.written?_eq unnoticed stands,
    merged.madeFor_eq unnoticed stands, Tree.locate_congr merged.home] at change
  refine change?_eq_some.2 (change.imp_right ?_)
  rintro ⟨rfl, missing, made⟩
  refine ⟨rfl, ?_, made⟩
  cases found : tree.get? location with
  | none => rfl
  | some old =>
    obtain kept | ⟨-, -, -, some⟩ := merged.grown.kept location old found
    · rw [missing] at kept
      contradiction
    · exact absurd missing some

/-- One more source is compiled. -/
theorem step (stands : task.1.StandsIn tree) :
    Merged tree config (task :: done)
      ((compileSource Tree.disk config task.1 task.2).run between).2 := by
  have written := merged.written?_eq unnoticed stands
  have made := merged.madeFor_eq unnoticed stands
  have locates := Tree.locate_congr merged.home
  constructor
  · rw [working_compileSource, merged.home]
  · intro other mem location entry change
    rw [(compileSource_run between config task).2]
    obtain rfl | inside := List.mem_cons.1 mem
    · cases now : change? between config other location with
      | some own =>
        rw [Option.some_or, ← change, merged.change?_of_between unnoticed stands now]
      | none =>
        -- What the source would put there alone is there already.
        have nothing (own : Entry) : change? between config other location ≠ some own := by
          simp [now]
        obtain ⟨text, given, rfl, rfl⟩ | ⟨rfl, missing, own⟩ := change?_eq_some.1 change
        · exact absurd
            (change?_eq_some.2 (.inl ⟨text, written.trans given, locates ▸ rfl, rfl⟩)) (nothing _)
        · obtain same | ⟨-, -, directory⟩ :=
            merged.get?_wayTo unnoticed (madeFor_subset tree config other own)
          · exact absurd
              (change?_eq_some.2 (.inr ⟨rfl, same.trans missing, made ▸ own⟩)) (nothing _)
          · exact directory
    · have before := merged.changed other inside location entry change
      cases now : change? between config task location with
      | none => exact before
      | some own =>
        obtain ⟨text, given, rfl, -⟩ | ⟨-, missing, -⟩ := change?_eq_some.1 now
        · rw [written] at given
          rw [locates, change?_locate unnoticed (written?_eq_some.1 given).2 other inside] at change
          contradiction
        · rw [missing] at before
          contradiction
  · intro location none
    obtain ⟨own, others⟩ := List.forall_mem_cons.1 none
    have nothing : change? between config task location = .none := by
      refine Option.eq_none_iff_forall_ne_some.2 fun entry change => ?_
      rw [merged.change?_of_between unnoticed stands change] at own
      contradiction
    rw [(compileSource_run between config task).2, nothing, Option.none_or,
      merged.kept location others]

end Merged

/-! ## Runs -/

/-- **Step by step through a run**: every source fares as it would alone, and the tree is
what each of them would make of it alone, put together. -/
theorem compileEach_merged {config : Config} {order : List (Task × Nat)} {done : List Task}
    {between : Tree} (merged : Merged tree config done between)
    (stands : ∀ entry ∈ order, entry.1.1.StandsIn tree)
    (unnoticed : (order.map Prod.fst ++ done).Pairwise fun task other =>
      Unnoticed tree task other ∧ Unnoticed tree other task) :
    ((compileEach config order).run between).1 =
        order.map (fun entry => (entry.2, fate tree config entry.1)) ∧
      Merged tree config (order.map Prod.fst ++ done)
        ((compileEach config order).run between).2 := by
  induction order generalizing done between with
  | nil => exact ⟨rfl, merged⟩
  | cons first rest ih =>
    obtain ⟨task, number⟩ := first
    obtain ⟨here, later⟩ := List.forall_mem_cons.1 stands
    rw [List.map_cons, List.cons_append] at unnoticed
    have own : ∀ other ∈ done, Unnoticed tree task other ∧ Unnoticed tree other task :=
      fun other mem => (List.pairwise_cons.1 unnoticed).1 other (List.mem_append_right _ mem)
    have moved : (rest.map Prod.fst ++ task :: done).Perm (task :: (rest.map Prod.fst ++ done)) :=
      List.perm_middle
    obtain ⟨fares, merged'⟩ := ih (merged.step own here) later
      ((moved.pairwise_iff fun given => given.symm).2 unnoticed)
    rw [compileEach_cons]
    dsimp only
    rw [fares, merged.fate_eq own here]
    exact ⟨rfl, merged'.perm moved⟩

/-- What a run gives, and the tree that it leaves, in any order. -/
theorem runInOrder_merged (formed : tree.WellFormed) {options : Options} {plan : Plan}
    (planned : Plan.of tree options = .ok plan) (apart : plan.Apart tree) (schedule : Schedule) :
    ((runInOrder schedule options).run tree).1 =
        plan.outcome (plan.tasks.map (fate tree plan.config)) ∧
      Merged tree plan.config plan.tasks ((runInOrder schedule options).run tree).2 := by
  obtain ⟨found, -⟩ := Plan.of_eq_ok planned
  have perm : ((schedule.order plan.tasks).map Prod.fst).Perm plan.tasks := by
    simpa [List.zipIdx_map_fst] using (schedule.perm plan.tasks).map Prod.fst
  have stands : ∀ entry ∈ schedule.order plan.tasks, entry.1.1.StandsIn tree := by
    intro entry mem
    exact standsIn_of_collected formed found _
      (List.mem_map_of_mem (perm.mem_iff.1 (List.mem_map_of_mem mem)))
  have unnoticed := (perm.pairwise_iff fun given => given.symm).2
    (unnoticed_of_apart formed planned apart)
  obtain ⟨fares, merged⟩ := compileEach_merged (.nil tree plan.config) stands
    (by rwa [List.append_nil])
  rw [List.append_nil] at merged
  rw [runInOrder_run planned]
  refine ⟨congrArg plan.outcome ?_, merged.perm perm⟩
  have numbers := numbers_compileEach plan.config (schedule.order plan.tasks) tree
  have count : plan.tasks.length = (plan.tasks.map (fate tree plan.config)).length := by simp
  rw [count]
  refine byNumber_eq (numbers ▸ schedule.nodup plan.tasks) fun number result here => ?_
  rw [List.getElem?_map] at here
  obtain ⟨task, there, rfl⟩ := Option.map_eq_some_iff.1 here
  rw [fares]
  exact List.mem_map.2 ⟨(task, number), schedule.mem_order.2 there, rfl⟩

/-- **The order in which sources are compiled makes no difference**, if their outputs keep out
of each other's way.  Every order gives the same result and the same tree: each source
fares as it would alone, the run fares as the first of them that fails, in the order in which
they were found, the outputs of all that do not fail are written, and nothing changes
but for these outputs and the directories made on the way to outputs. -/
theorem order_irrelevant (options : Options) {tree : Tree} (formed : tree.WellFormed)
    (apart : ∀ plan, Plan.of tree options = .ok plan → plan.Apart tree) (schedule : Schedule) :
    let whole := (run Tree.disk options).run tree
    let other := (runInOrder schedule options).run tree
    other.1 = whole.1 ∧ other.2.working = whole.2.working ∧
      (∀ location, other.2.get? location = whole.2.get? location) ∧
      ∀ plan, Plan.of tree options = .ok plan →
        let alone (task : Task) := ((compileSource Tree.disk plan.config task.1 task.2).run tree).1
        other.1 = plan.outcome (plan.tasks.map alone) ∧
        (∀ task ∈ plan.tasks, alone task = .ok () →
          ∃ text compiled, tree.read? task.1.path = some text ∧
            Translator.plain.translate plan.config text = .ok compiled ∧
            other.2.read? task.2 = some compiled) ∧
        ∀ location, other.2.get? location ≠ tree.get? location →
          ∃ task ∈ plan.tasks, location = tree.locate task.2 ∧ alone task = .ok () ∨
            location ∈ tree.wayTo task.2 ∧ tree.get? location = none ∧
              other.2.get? location = some .directory := by
  intro whole other
  cases planned : Plan.of tree options with
  | error failure =>
    have same : other = whole := by
      simp only [other, whole, run_eq_runInOrder, runInOrder_error planned]
    rw [same]
    exact ⟨rfl, rfl, fun _ => rfl, fun _ given => by contradiction⟩
  | ok plan =>
    obtain ⟨straight, merged⟩ := runInOrder_merged formed planned (apart plan planned) .straight
    rw [← run_eq_runInOrder] at straight merged
    obtain ⟨fares, merged'⟩ := runInOrder_merged formed planned (apart plan planned) schedule
    refine ⟨fares.trans straight.symm, merged'.home.trans merged.home.symm,
      merged'.get?_eq merged, ?_⟩
    rintro _ ⟨⟩ alone
    have same : alone = fate tree plan.config :=
      funext fun task => (compileSource_run tree plan.config task).1
    rw [same]
    refine ⟨fares, fun task mem done => ?_, fun location differs => ?_⟩
    · obtain ⟨compiled, given⟩ := fate_eq_ok.1 done
      obtain ⟨text, read, translated⟩ := prepared_eq_ok (written?_eq_some.1 given).1
      exact ⟨text, compiled, read, translated, merged'.read?_output mem given⟩
    · obtain ⟨task, mem, entry, change, now⟩ | ⟨-, unchanged⟩ := merged'.cases location
      · refine ⟨task, mem, ?_⟩
        obtain ⟨text, given, rfl, -⟩ | ⟨rfl, missing, made⟩ := change?_eq_some.1 change
        · exact .inl ⟨rfl, fate_eq_ok.2 ⟨text, given⟩⟩
        · exact .inr ⟨madeFor_subset tree plan.config task made, missing, now⟩
      · exact absurd unchanged differs

/-- Two sources, one of them faulty: the other one is compiled before or after it. -/
theorem order_irrelevant_twoSources :
    let whole := (run Tree.disk (twoInto true)).run twoSources
    let other := (runInOrder .backwards (twoInto true)).run twoSources
    other.1 = whole.1 ∧ (∀ location, other.2.get? location = whole.2.get? location) ∧
      ∃ compiled, other.2.read? "/home/app/dist/a.js" = some compiled := by
  obtain ⟨result, -, same, each⟩ := order_irrelevant (twoInto true)
    (by decide +kernel : twoSources.WellFormed)
    (fun plan planned => by
      cases (plan_twoSources true).symm.trans planned
      decide +kernel)
    .backwards
  obtain ⟨-, outputs, -⟩ := each _ (plan_twoSources true)
  obtain ⟨_, compiled, -, -, written⟩ := outputs (⟨"src/a.jsx", "a.jsx"⟩, "/home/app/dist/a.js")
    List.mem_cons_self (Outcome.eq_ok_of_toOption (by decide +kernel))
  exact ⟨result, same, compiled, written⟩

end Compile

end InlineMarkup
