import InlineMarkup.Proofs.Runs
import Mathlib.Data.List.Basic
import Mathlib.Data.List.Induction

/-!
# InlineMarkup.Proofs.Collecting

Where the sources of a run stand.  In a tree that is well formed everything stands in a
directory, so whatever is found below a directory can be reached by its path:

* `Tree.WellFormed.above`: all that something stands below is a directory;
* `Compile.standsIn_of_collected`: the path of a source leads to it through directories,
  and ends in its name;
* `Compile.wellFormed_runInOrder`: a tree is well formed after a run, if it was before.
-/

namespace InlineMarkup

namespace Location

/-- Names lead on from a location one below the other. -/
theorem foldl_follow_names (location : Location) (names : List String) :
    (names.map Path.Component.name).foldl follow location = location ++ names := by
  induction names generalizing location with
  | nil => simp
  | cons name rest ih => simp [ih, follow]

theorem mem_way_names {location passed : Location} {names : List String}
    (mem : passed ∈ location.way (names.map .name)) :
    ∃ first rest, names = first ++ rest ∧ first ≠ [] ∧ passed = location ++ first := by
  induction names generalizing location with
  | nil => contradiction
  | cons name rest ih =>
    obtain rfl | later := List.mem_cons.1 mem
    · exact ⟨[name], rest, rfl, by simp, rfl⟩
    · obtain ⟨first, rest, rfl, -, rfl⟩ := ih later
      exact ⟨name :: first, rest, rfl, by simp, by simp [follow]⟩

/-- A way ends where its components lead. -/
theorem getLast_way (location : Location) (components : List Path.Component) :
    (location :: location.way components).getLast (List.cons_ne_nil _ _) =
      components.foldl follow location := by
  induction components generalizing location with
  | nil => rfl
  | cons component rest ih =>
    rw [way, List.getLast_cons (List.cons_ne_nil _ _)]
    exact ih (location.follow component)

end Location

namespace Tree

/-- Names that follow a path lead on from where it leads. -/
theorem locate_join (tree : Tree) (path : String) {names : List String} (some : names ≠ [])
    (isName : ∀ name ∈ names, Path.IsName name.toList) :
    tree.locate (Path.join path ("/".intercalate names)) = tree.locate path ++ names := by
  rw [locate, Path.components_join path some isName, List.foldl_append, ← locate,
    Location.foldl_follow_names]

example :
    let tree : Tree := ⟨["home", "app"], []⟩
    tree.locate "lib/a.js" = ["home", "app", "lib", "a.js"] ∧
      tree.locate "../app/lib/a.js" = tree.locate "lib/a.js" ∧
      tree.locate "/home/app/lib/a.js" = tree.locate "lib/a.js" := by
  decide +kernel

/-- Every location is listed once and has names that can be written in paths, and everything
stands in a directory.  The working directory and those that it is in are not listed. -/
@[mk_iff]
structure WellFormed (tree : Tree) : Prop where
  distinct : (tree.entries.map Prod.fst).Nodup
  home : ∀ name ∈ tree.working, Path.IsName name.toList
  named : ∀ entry ∈ tree.entries, ∀ name ∈ entry.1, Path.IsName name.toList
  below : ∀ entry ∈ tree.entries, ¬ entry.1 <+: tree.working
  rooted : ∀ entry ∈ tree.entries, tree.get? entry.1.dropLast = some .directory

instance (tree : Tree) : Decidable tree.WellFormed :=
  decidable_of_iff _ (wellFormed_iff tree).symm

namespace WellFormed

variable {tree : Tree} {location : Location}

theorem mem (found : tree.get? location ≠ none) (apart : ¬ location <+: tree.working) :
    ∃ entry, (location, entry) ∈ tree.entries := by
  obtain ⟨entry, same⟩ := Option.ne_none_iff_exists'.1 found
  rw [get?_elsewhere apart] at same
  obtain ⟨before, after, split, -⟩ := List.lookup_eq_some_iff.1 same
  exact ⟨entry, by simp [split]⟩

/-- What is listed is there. -/
theorem get?_of_mem (formed : tree.WellFormed) {entry : Entry}
    (mem : (location, entry) ∈ tree.entries) : tree.get? location = some entry := by
  rw [get?_elsewhere (formed.below _ mem)]
  exact Compile.lookup_eq_some formed.distinct mem

/-- What something stands in is a directory. -/
theorem parent (formed : tree.WellFormed) (found : tree.get? location ≠ none) :
    tree.get? location.dropLast = some .directory := by
  by_cases above : location <+: tree.working
  · exact get?_enclosing ((List.dropLast_prefix location).trans above)
  · obtain ⟨entry, inside⟩ := mem found above
    exact formed.rooted (location, entry) inside

/-- Whatever is there has names that can be written in paths. -/
theorem isName (formed : tree.WellFormed) (found : tree.get? location ≠ none) :
    ∀ name ∈ location, Path.IsName name.toList := by
  by_cases above : location <+: tree.working
  · exact fun name inside => formed.home name (above.subset inside)
  · obtain ⟨entry, inside⟩ := mem found above
    exact formed.named (location, entry) inside

/-- All that something stands below is a directory. -/
theorem above (formed : tree.WellFormed) {first rest : List String} (below : rest ≠ [])
    (found : tree.get? (first ++ rest) ≠ none) : tree.get? first = some .directory := by
  induction rest using List.reverseRecOn with
  | nil => contradiction
  | append_singleton rest name ih =>
    have parent := formed.parent found
    rw [← List.append_assoc, List.dropLast_concat] at parent
    by_cases last : rest = []
    · simpa [last] using parent
    · exact ih last (by simp [parent])

/-- All components but names lead from directories to directories. -/
theorem name_of_follow (formed : tree.WellFormed) (directory : tree.get? location = some .directory)
    {component : Path.Component}
    (other : tree.get? (location.follow component) ≠ some .directory) :
    ∃ name, component = .name name := by
  cases component with
  | root => exact absurd (get?_root tree) other
  | here => exact absurd directory other
  | up => exact absurd (formed.parent (by simp [directory])) other
  | name text => exact ⟨text, rfl⟩

/-! ### What keeps a tree well formed -/

theorem mem_putAmong {entry : Entry} {entries : List (Location × Entry)}
    {other : Location × Entry} (mem : other ∈ putAmong location entry entries) :
    other = (location, entry) ∨ other ∈ entries := by
  induction entries with
  | nil => exact .inl (List.mem_singleton.1 mem)
  | cons first rest ih =>
    rw [putAmong] at mem
    split at mem
    · next same =>
      obtain here | later := List.mem_cons.1 mem
      · exact .inl (same ▸ here)
      · exact .inr (List.mem_cons_of_mem _ later)
    · obtain rfl | later := List.mem_cons.1 mem
      · exact .inr List.mem_cons_self
      · exact (ih later).imp_right (List.mem_cons_of_mem _)

/-- What is put somewhere is listed in the place of what stood there, or at the end. -/
theorem nodup_putAmong {entry : Entry} {entries : List (Location × Entry)}
    (distinct : (entries.map Prod.fst).Nodup) :
    ((putAmong location entry entries).map Prod.fst).Nodup := by
  induction entries with
  | nil => simp [putAmong]
  | cons first rest ih =>
    obtain ⟨own, others⟩ := List.nodup_cons.1 distinct
    rw [putAmong]
    split
    · exact distinct
    · next apart =>
      refine List.nodup_cons.2 ⟨fun mem => ?_, ih others⟩
      obtain ⟨other, inside, same⟩ := List.mem_map.1 mem
      obtain rfl | before := mem_putAmong inside
      · exact apart same.symm
      · exact own (List.mem_map.2 ⟨other, before, same⟩)

/-- A name below a directory can be given to something new, or to another file. -/
theorem put (formed : tree.WellFormed) (directory : tree.get? location = some .directory)
    {name : String} (isName : Path.IsName name.toList) (entry : Entry)
    (free : tree.get? (location ++ [name]) ≠ some .directory) :
    (Tree.put (location ++ [name]) entry tree).WellFormed where
  distinct := nodup_putAmong formed.distinct
  home := formed.home
  named := by
    intro other mem
    obtain rfl | before := mem_putAmong mem
    · intro text inside
      obtain inside | last := List.mem_append.1 inside
      · exact formed.isName (by simp [directory]) text inside
      · rwa [List.mem_singleton.1 last]
    · exact formed.named other before
  below := by
    intro other mem
    obtain rfl | before := mem_putAmong mem
    · exact fun above => free (get?_enclosing above)
    · exact formed.below other before
  rooted := by
    intro other mem
    have kept (place : Location) (found : tree.get? place = some .directory) :
        (Tree.put (location ++ [name]) entry tree).get? place = some .directory := by
      rw [get?_put free, if_neg, found]
      rintro rfl
      exact free found
    obtain rfl | before := mem_putAmong mem
    · exact kept _ (by rw [List.dropLast_concat, directory])
    · exact kept _ (formed.rooted other before)

theorem makeWay (formed : tree.WellFormed) (directory : tree.get? location = some .directory)
    {components : List Path.Component}
    (isName : ∀ name, .name name ∈ components → Path.IsName name.toList) :
    (tree.makeWay location components).2.WellFormed := by
  fun_induction Tree.makeWay tree location components with
  | case1 => exact formed
  | case2 tree location component rest next found ih =>
    exact ih formed found fun name mem => isName name (List.mem_cons_of_mem _ mem)
  | case3 => exact formed
  | case4 tree location component rest next missing admitted ih =>
    have free : tree.get? (location.follow component) ≠ some .directory := by simp [next, missing]
    obtain ⟨name, rfl⟩ := formed.name_of_follow directory free
    refine ih (formed.put directory (isName name List.mem_cons_self) _ free) ?_ fun name mem =>
      isName name (List.mem_cons_of_mem _ mem)
    rw [get?_put free, if_pos rfl]
  | case5 => exact formed

end WellFormed

/-! ## Paths that lead somewhere -/

theorem walk?_concat {tree : Tree} {location goal : Location} {first : List Path.Component}
    {last : Path.Component} (h : tree.walk? location (first ++ [last]) = some goal) :
    tree.get? (first.foldl Location.follow location) = some .directory ∧
      (first.foldl Location.follow location).follow last = goal := by
  induction first generalizing location with
  | nil =>
    rw [List.nil_append, walk?] at h
    split at h
    · next found => exact ⟨found, Option.some.inj h⟩
    · contradiction
  | cons component rest ih =>
    rw [List.cons_append, walk?] at h
    split at h
    · exact ih h
    · contradiction

/-- All components but names lead to directories, so the path of a file ends in a name. -/
theorem WellFormed.last_name {tree : Tree} (formed : tree.WellFormed) {path : String}
    {goal : Location} (reached : tree.walk? tree.working (Path.components path) = some goal)
    (file : tree.get? goal ≠ some .directory) :
    ∃ first name, Path.components path = first ++ [.name name] := by
  obtain empty | ⟨first, last, whole⟩ := List.eq_nil_or_concat' (Path.components path)
  · rw [empty] at reached
    cases reached
    exact absurd (get?_working tree) file
  rw [whole] at reached
  obtain ⟨directory, rfl⟩ := walk?_concat reached
  obtain ⟨name, rfl⟩ := formed.name_of_follow directory file
  exact ⟨first, name, whole⟩

theorem WellFormed.write {tree : Tree} (formed : tree.WellFormed) (path text : String) :
    (tree.write path text).2.WellFormed := by
  unfold Tree.write
  split
  · split
    · exact formed
    · next location reached =>
      split
      · exact formed
      · next free =>
        have other := (not_or.1 free).1
        obtain ⟨first, name, whole⟩ := formed.last_name reached other
        have isName : Path.IsName name.toList := Path.isName_of_mem (by rw [whole]; simp)
        rw [whole] at reached
        obtain ⟨directory, rfl⟩ := walk?_concat reached
        exact formed.put directory isName _ other
  · exact formed

/-- A path that leads to a directory leads through directories all the way. -/
theorem get?_way {tree : Tree} {path : String} {goal : Location}
    (reached : tree.walk? tree.working (Path.components path) = some goal)
    (directory : tree.get? goal = some .directory) :
    ∀ passed ∈ tree.working.way (Path.components path), tree.get? passed = some .directory := by
  obtain ⟨ends, through⟩ := (tree.walk?_eq_some tree.working goal _).1 reached
  intro passed mem
  have split := List.dropLast_concat_getLast
    (List.cons_ne_nil tree.working (tree.working.way (Path.components path)))
  rw [Location.getLast_way, ends] at split
  have inside := List.mem_cons_of_mem tree.working mem
  rw [← split] at inside
  obtain before | last := List.mem_append.1 inside
  · exact through passed before
  · rw [List.mem_singleton.1 last, directory]

/-! ## Files below a directory -/

theorem below?_eq_some {base location : Location} {names : List String}
    (h : below? base location = some names) : location = base ++ names := by
  fun_induction below? base location with
  | case1 => exact Option.some.inj h
  | case2 base name more ih => rw [ih h, List.cons_append]
  | case3 => contradiction
  | case4 => contradiction

/-- The files below a directory stand there. -/
theorem mem_files {tree : Tree} {path : String} {names : List String}
    (mem : names ∈ tree.files path) :
    ∃ base, tree.find? path = some (base, .directory) ∧
      ∃ content, (base ++ names, .file content) ∈ tree.entries := by
  unfold files at mem
  split at mem
  · next base same =>
    obtain ⟨⟨location, entry⟩, inside, found⟩ := List.mem_filterMap.1 mem
    cases entry with
    | directory => contradiction
    | file content =>
      rw [below?_eq_some found] at inside
      exact ⟨base, same, content, inside⟩
  · contradiction

end Tree

/-! ## Sources -/

/-- A source stands in a tree: its path leads through directories to a file and ends in the
name of a file, and so does the path from where it was found. -/
structure Source.StandsIn (source : Source) (tree : Tree) : Prop where
  through : ∀ passed ∈ tree.wayTo source.path, tree.get? passed = some .directory
  found : ∃ content, tree.get? (tree.locate source.path) = some (.file content)
  named : (Path.cutName? source.path).isSome = true
  file : Path.namesDirectory source.path = false
  relative : ∃ names last, source.relative = "/".intercalate (names ++ [last]) ∧
    ∀ name ∈ names ++ [last], Path.IsName name.toList

namespace Compile

variable {tree : Tree}

theorem standsIn_file (formed : tree.WellFormed) {path : String}
    (kind : tree.kind? path = some .file) :
    Source.StandsIn ⟨path, (Path.fileName? path).getD path⟩ tree := by
  obtain ⟨⟨goal, entry⟩, same, isFile⟩ := Option.map_eq_some_iff.1 kind
  obtain ⟨reached, found, named⟩ := Tree.find?_sound same
  obtain ⟨content, rfl⟩ : ∃ content, entry = .file content := by
    cases entry with
    | directory => contradiction
    | file content => exact ⟨content, rfl⟩
  obtain ⟨ends, through⟩ := (tree.walk?_path path goal).1 reached
  obtain ⟨first, name, whole⟩ := formed.last_name reached (by simp [found])
  have cut := Path.isSome_cutName? whole
  refine ⟨through, ⟨content, by rw [ends, found]⟩, cut, ?_, ?_⟩
  · rw [← Bool.not_eq_true]
    intro directory
    cases named directory
  · obtain ⟨⟨before, own⟩, cut⟩ := Option.isSome_iff_exists.1 cut
    obtain ⟨-, -, isName, -⟩ := Path.components_cutName? cut
    refine ⟨[], String.ofList own, ?_, by simpa using isName⟩
    simp [Path.fileName?, cut]

theorem standsIn_ofNames (formed : tree.WellFormed) {path : String} {names : List String}
    (mem : names ∈ tree.files path) (wanted : Source.wanted names = true) :
    (Source.ofNames path names).StandsIn tree := by
  obtain ⟨base, same, content, inside⟩ := Tree.mem_files mem
  obtain ⟨reached, found, -⟩ := Tree.find?_sound same
  have ends : tree.locate path = base := ((tree.walk?_path path base).1 reached).1
  have isName : ∀ name ∈ names, Path.IsName name.toList := fun name mem =>
    formed.named _ inside name (List.mem_append_right _ mem)
  obtain rfl | ⟨init, last, rfl⟩ := List.eq_nil_or_concat' names
  · contradiction
  have whole := Path.components_join path (by simp) isName
  have stands := formed.get?_of_mem inside
  obtain ⟨file, before, cut, -⟩ := Path.cutName?_join path isName
  refine ⟨fun passed mem => ?_, ⟨content, ?_⟩, by simp [Source.ofNames, cut], file, init, last,
    rfl, isName⟩
  · have way : tree.wayTo (Path.join path ("/".intercalate (init ++ [last]))) =
        tree.working.way (Path.components path) ++ base.way (init.map .name) := by
      rw [Tree.wayTo, whole, List.map_append, ← List.append_assoc, List.map_singleton,
        List.dropLast_concat, Location.way_append, ← ends, Tree.locate]
    rw [Source.ofNames, way] at mem
    obtain first | later := List.mem_append.1 mem
    · exact Tree.get?_way reached found passed first
    · obtain ⟨start, rest, rfl, -, rfl⟩ := Location.mem_way_names later
      have below : rest ++ [last] ≠ [] := by simp
      refine formed.above below ?_
      rw [List.append_assoc] at stands
      simp [stands]
  · rw [Source.ofNames, tree.locate_join path (by simp) isName, ends, stands]

theorem standsIn_of_expanded (formed : tree.WellFormed) {path : String} {sources : List Source}
    (h : expanded tree path = .ok sources) : ∀ source ∈ sources, source.StandsIn tree := by
  unfold expanded at h
  split at h
  · next kind =>
    cases h
    simpa using standsIn_file formed kind
  · cases h
    intro source mem
    obtain ⟨names, sorted, rfl⟩ := List.mem_map.1 mem
    obtain ⟨inside, wanted⟩ := List.mem_filter.1 (List.mem_mergeSort.1 sorted)
    exact standsIn_ofNames formed inside wanted
  · contradiction

/-- Every source that is found stands in the tree. -/
theorem standsIn_of_collected (formed : tree.WellFormed) {paths : List String}
    {sources : List Source} (h : collected tree paths = .ok sources) :
    ∀ source ∈ sources, source.StandsIn tree := by
  induction paths generalizing sources with
  | nil =>
    cases h
    simp
  | cons path rest ih =>
    obtain ⟨first, here, h⟩ := Outcome.bind_eq_ok.1 h
    obtain ⟨others, later, h⟩ := Outcome.bind_eq_ok.1 h
    cases h
    intro source mem
    obtain mem | mem := List.mem_append.1 mem
    · exact standsIn_of_expanded formed here source mem
    · exact ih later source mem

/-! ## Runs -/

theorem wellFormed_compileSource (formed : tree.WellFormed) (config : Config) (task : Task) :
    ((compileSource Tree.disk config task.1 task.2).run tree).2.WellFormed := by
  rw [compileSource_eq]
  cases prepared tree config task with
  | error failure => exact formed
  | ok text =>
    have between : (opened tree task.2).2.WellFormed := by
      unfold opened Tree.makeDirectories
      split
      · split
        · exact formed.makeWay tree.get?_working fun _ => Path.isName_of_mem
        · exact formed
      · exact formed
    dsimp only
    rw [writeOutput_eq]
    split
    · exact between.write task.2 text
    · exact between

theorem wellFormed_compileEach (config : Config) (order : List (Task × Nat))
    (formed : tree.WellFormed) : ((compileEach config order).run tree).2.WellFormed := by
  induction order generalizing tree with
  | nil => exact formed
  | cons first rest ih =>
    obtain ⟨task, number⟩ := first
    rw [compileEach_cons]
    exact ih (wellFormed_compileSource formed config task)

/-- A run leaves a tree well formed. -/
theorem wellFormed_runInOrder (schedule : Schedule) (options : Options)
    (formed : tree.WellFormed) : ((runInOrder schedule options).run tree).2.WellFormed := by
  cases planned : Plan.of tree options with
  | error failure =>
    rw [runInOrder_error planned]
    exact formed
  | ok plan =>
    rw [runInOrder_run planned]
    exact wellFormed_compileEach plan.config _ formed

end Compile

end InlineMarkup
