import InlineMarkup.Files.Tree
import InlineMarkup.Proofs.Paths

/-!
# InlineMarkup.Proofs.FileTree

What the operations on a tree do, location by location.  A tree is seen through
`Tree.get?`, and a path through the locations that its components lead to, one
after the other (`Location.way`), seen from the working directory (`Tree.locate`):

* `Tree.walk?_eq_some`: a path leads somewhere if it leads through directories;
* `Tree.get?_makeWay`: making the directories on a way puts a directory wherever
  nothing was, up to where the way is blocked;
* `Tree.write_eq`: writing puts a file at the end of the way, unless there is a
  directory.
-/

namespace InlineMarkup

namespace Location

/-- The locations that components lead to, one after the other. -/
def way (location : Location) : List Path.Component → List Location
  | [] => []
  | component :: rest => location.follow component :: way (location.follow component) rest

theorem way_append (location : Location) (first second : List Path.Component) :
    location.way (first ++ second) =
      location.way first ++ (first.foldl follow location).way second := by
  induction first generalizing location with
  | nil => rfl
  | cons component rest ih => simp [way, ih]

end Location

namespace Tree

/-- The location that a path leads to, as long as it leads through directories. -/
def locate (tree : Tree) (path : String) : Location :=
  (Path.components path).foldl Location.follow tree.working

/-- The locations that a path leads through, on the way to its last component. -/
def wayTo (tree : Tree) (path : String) : List Location :=
  tree.working.way (Path.components path).dropLast

theorem locate_congr {tree other : Tree} (home : other.working = tree.working) :
    other.locate = tree.locate := by
  funext path
  rw [locate, locate, home]

theorem wayTo_congr {tree other : Tree} (home : other.working = tree.working) :
    other.wayTo = tree.wayTo := by
  funext path
  rw [wayTo, wayTo, home]

theorem wayTo_eq (tree : Tree) {path : String} {first : List Path.Component}
    {last : Path.Component} (h : Path.components path = first ++ [last]) :
    tree.wayTo path = tree.working.way first := by
  rw [wayTo, h, List.dropLast_concat]

/-! ## Entries -/

/-- The working directory and the directories it is in are there. -/
theorem get?_enclosing {tree : Tree} {location : Location} (above : location <+: tree.working) :
    tree.get? location = some .directory :=
  if_pos (List.isPrefixOf_iff_prefix.2 above)

theorem get?_elsewhere {tree : Tree} {location : Location}
    (apart : ¬ location <+: tree.working) :
    tree.get? location = tree.entries.lookup location :=
  if_neg fun above => apart (List.isPrefixOf_iff_prefix.1 above)

theorem get?_working (tree : Tree) : tree.get? tree.working = some .directory :=
  get?_enclosing (List.prefix_refl _)

theorem get?_root (tree : Tree) : tree.get? [] = some .directory :=
  get?_enclosing (List.nil_prefix)

theorem lookup_putAmong (entries : List (Location × Entry)) (location other : Location)
    (entry : Entry) :
    (putAmong location entry entries).lookup other =
      if other = location then some entry else entries.lookup other := by
  have unequal {a b : Location} (apart : a ≠ b) : (a == b) = false := beq_eq_false_iff_ne.2 apart
  induction entries with
  | nil =>
    by_cases same : other = location
    · simp [putAmong, same]
    · simp [putAmong, List.lookup_cons, same, unequal same]
  | cons first rest ih =>
    obtain ⟨key, old⟩ := first
    rw [putAmong]
    by_cases here : key = location
    · by_cases same : other = location
      · simp [here, same]
      · simp [here, same, List.lookup_cons, unequal same]
    · rw [if_neg here, List.lookup_cons, List.lookup_cons, ih]
      by_cases same : other = key
      · simp [same, here]
      · simp [unequal same]

@[simp] theorem working_put (location : Location) (entry : Entry) (tree : Tree) :
    (put location entry tree).working = tree.working := rfl

/-- What was put somewhere stands there, and nothing else changes, unless there was a
directory. -/
theorem get?_put {tree : Tree} {location : Location}
    (free : tree.get? location ≠ some .directory) (other : Location) (entry : Entry) :
    (put location entry tree).get? other =
      if other = location then some entry else tree.get? other := by
  by_cases above : other <+: tree.working
  · have apart : other ≠ location := by
      rintro rfl
      exact free (get?_enclosing above)
    rw [get?_enclosing (by exact above), get?_enclosing above, if_neg apart]
  · rw [get?_elsewhere (by exact above), get?_elsewhere above, put, lookup_putAmong]

/-! ## Ways -/

theorem walk?_eq_some (tree : Tree) (location goal : Location) (components : List Path.Component) :
    tree.walk? location components = some goal ↔
      components.foldl Location.follow location = goal ∧
        ∀ passed ∈ (location :: location.way components).dropLast,
          tree.get? passed = some .directory := by
  induction components generalizing location with
  | nil => simp [walk?, Location.way]
  | cons component rest ih =>
    rw [walk?, Location.way, List.dropLast_cons_cons, List.forall_mem_cons]
    by_cases start : tree.get? location = some .directory
    · simp [start, ih]
    · simp [start]

/-- A path leads somewhere if it leads through directories. -/
theorem walk?_path (tree : Tree) (path : String) (goal : Location) :
    tree.walk? tree.working (Path.components path) = some goal ↔
      tree.locate path = goal ∧
        ∀ passed ∈ tree.wayTo path, tree.get? passed = some .directory := by
  rw [walk?_eq_some, locate, wayTo]
  match Path.components path with
  | [] => simp [Location.way]
  | component :: rest =>
    have same : (tree.working :: tree.working.way (component :: rest)).dropLast =
        tree.working :: tree.working.way (component :: rest).dropLast := by
      obtain ⟨first, last, split⟩ : ∃ first last, component :: rest = first ++ [last] :=
        ⟨_, _, (List.dropLast_concat_getLast (List.cons_ne_nil component rest)).symm⟩
      rw [split, List.dropLast_concat, Location.way_append, ← List.cons_append]
      exact List.dropLast_concat
    rw [same, List.forall_mem_cons]
    simp [get?_working]

/-- What a path leads to stands at the end of its way. -/
theorem find?_sound {tree : Tree} {path : String} {goal : Location} {entry : Entry}
    (h : tree.find? path = some (goal, entry)) :
    tree.walk? tree.working (Path.components path) = some goal ∧ tree.get? goal = some entry ∧
      (Path.namesDirectory path = true → entry = .directory) := by
  unfold find? at h
  split at h
  · contradiction
  obtain ⟨location, reached, h⟩ := Option.bind_eq_some_iff.1 h
  obtain ⟨own, found, h⟩ := Option.bind_eq_some_iff.1 h
  split at h
  · contradiction
  · next allowed =>
    cases h
    exact ⟨reached, found, fun named => Decidable.not_not.1 fun other => allowed ⟨named, other⟩⟩

/-- What a path leads to stays, if the directories it leads through do. -/
theorem find?_congr {tree other : Tree} {path : String} {goal : Location}
    (reached : tree.walk? tree.working (Path.components path) = some goal)
    (home : other.working = tree.working)
    (directories : ∀ location, tree.get? location = some .directory →
      other.get? location = some .directory)
    (same : other.get? goal = tree.get? goal) : other.find? path = tree.find? path := by
  obtain ⟨ends, passed⟩ := (tree.walk?_path path goal).1 reached
  have reached' : other.walk? other.working (Path.components path) = some goal := by
    rw [walk?_path, locate_congr home, wayTo_congr home]
    exact ⟨ends, fun location mem => directories _ (passed _ mem)⟩
  simp only [find?, reached, reached', Option.bind_eq_bind, Option.bind_some, same]

/-! ## Making directories -/

/-- Whether a way can lead through a location, once directories are made. -/
def passable (tree : Tree) (location : Location) : Bool :=
  match tree.get? location with
  | some .directory => true
  | some (.file _) => false
  | none => admits location

/-- Making a directory on a way changes nothing about where it can lead. -/
theorem passable_put {tree : Tree} {location : Location} (missing : tree.get? location = none)
    (admitted : admits location = true) :
    (put location .directory tree).passable = tree.passable := by
  funext other
  unfold passable
  rw [get?_put (by simp [missing])]
  by_cases same : other = location
  · simp [same, missing, admitted]
  · simp [same]

theorem makeWay_fst (tree : Tree) (location : Location) (components : List Path.Component) :
    (tree.makeWay location components).1 = (location.way components).all tree.passable := by
  fun_induction makeWay tree location components with
  | case1 => rfl
  | case2 tree location component rest next found ih =>
    simp [Location.way, ih, passable, next, found]
  | case3 tree location component rest next content found =>
    simp [Location.way, passable, next, found]
  | case4 tree location component rest next missing admitted ih =>
    rw [ih, passable_put missing admitted, Location.way, List.all_cons]
    simp [passable, next, missing, admitted]
  | case5 tree location component rest next missing refused =>
    simp [Location.way, passable, next, missing, refused]

/-- Making the directories on a way puts a directory wherever nothing was, up to
where the way is blocked. -/
theorem get?_makeWay (tree : Tree) (location other : Location) (components : List Path.Component) :
    (tree.makeWay location components).2.get? other =
      if tree.get? other = none ∧ other ∈ (location.way components).takeWhile tree.passable then
        some .directory
      else tree.get? other := by
  fun_induction makeWay tree location components with
  | case1 => simp [Location.way]
  | case2 tree location component rest next found ih =>
    rw [ih, Location.way, List.takeWhile_cons_of_pos (by simp [passable, next, found])]
    by_cases same : other = next
    · simp [same, found]
    · simp [same, next]
  | case3 tree location component rest next content found =>
    simp [Location.way, passable, next, found]
  | case4 tree location component rest next missing admitted ih =>
    rw [ih, passable_put missing admitted, Location.way,
      List.takeWhile_cons_of_pos (by simp [passable, next, missing, admitted]),
      get?_put (by simp [missing])]
    by_cases same : other = next
    · simp [same, missing, next]
    · simp [same, next]
  | case5 tree location component rest next missing refused =>
    simp [Location.way, passable, next, missing, refused]

/-! ## Writing -/

/-- Whether a path can be given to a new file. -/
def namesFile (path : String) : Bool :=
  usable path && !Path.namesDirectory path && (Path.fileName? path).isSome

/-- Writing puts a file at the end of a way through directories, unless there is a
directory. -/
theorem write_eq {tree : Tree} {path : String}
    (open' : ∀ passed ∈ tree.wayTo path, tree.get? passed = some .directory)
    (text : String) :
    tree.write path text =
      if namesFile path = true ∧ admits (tree.locate path) = true ∧
          tree.get? (tree.locate path) ≠ some .directory then
        (true, put (tree.locate path) (.file (.text text)) tree)
      else (false, tree) := by
  have reached := (tree.walk?_path path (tree.locate path)).2 ⟨rfl, open'⟩
  unfold write
  by_cases named : namesFile path = true
  · have given := named
    simp only [namesFile, Bool.and_eq_true] at given
    rw [if_pos ⟨given.1.1, given.1.2, given.2⟩, reached]
    by_cases blocked : tree.get? (tree.locate path) = some .directory
    · simp [blocked]
    · by_cases admitted : admits (tree.locate path) = true
      · simp [blocked, admitted, named]
      · simp [blocked, admitted]
  · rw [if_neg fun given => named (by simp [namesFile, given.1, given.2.1, given.2.2])]
    simp [named]

/-- A file at the end of a way through directories is what is read there. -/
theorem read?_eq_some {tree : Tree} {path text : String} (named : namesFile path = true)
    (open' : ∀ passed ∈ tree.wayTo path, tree.get? passed = some .directory)
    (found : tree.get? (tree.locate path) = some (.file (.text text))) :
    tree.read? path = some text := by
  have reached := (tree.walk?_path path (tree.locate path)).2 ⟨rfl, open'⟩
  simp only [namesFile, Bool.and_eq_true, Bool.not_eq_true'] at named
  have some : path.isEmpty = false := by
    rw [← Bool.not_eq_true]
    intro empty
    have none : path = "" := by simpa using empty
    rw [none] at named
    exact absurd named.2 (by decide)
  simp [read?, find?, reached, found, some, named.1.1, named.1.2]

/-! ## The working directory -/

@[simp] theorem working_makeWay (tree : Tree) (location : Location)
    (components : List Path.Component) :
    (tree.makeWay location components).2.working = tree.working := by
  fun_induction makeWay tree location components <;> simp_all

@[simp] theorem working_makeDirectories (tree : Tree) (path : String) :
    (tree.makeDirectories path).2.working = tree.working := by
  unfold makeDirectories
  split <;> simp

@[simp] theorem working_write (tree : Tree) (path text : String) :
    (tree.write path text).2.working = tree.working := by
  unfold write
  split
  · split
    · rfl
    · split <;> rfl
  · rfl

end Tree

end InlineMarkup
