import InlineMarkup.Compile
import InlineMarkup.Proofs.FileTree

/-!
# InlineMarkup.Proofs.Tasks

What compiling one source does to a tree.  The source is read and translated
(`Compile.prepared`), directories are made on the way to its output
(`Compile.made`), and the output is put at the end of that way, if it is free
(`Compile.placing`).  These three are all that a tree has to be asked for:

* `Compile.compileSource_run`: how the source fares, and what stands where
  afterwards;
* `Compile.grown_compileSource`: nothing that was there is lost, except for what
  the output replaces.
-/

namespace InlineMarkup.Compile

open InlineMarkup.Tree (namesFile admits)

/-- A source, and the path of its output. -/
abbrev Task := Source × String

/-! ## Outputs -/

/-- The directory that is made for an output. -/
def directory? (output : String) : Option String := (Path.parent? output).filter (· != "")

/-- The locations of the directories on the way to an output, as far as they can
be made. -/
def made (tree : Tree) (output : String) : List Location :=
  if (directory? output).all Tree.usable then (tree.wayTo output).takeWhile tree.passable else []

/-- Whether the directories for an output can be made. -/
def wayFree (tree : Tree) (output : String) : Bool :=
  (directory? output).all Tree.usable && (tree.wayTo output).all tree.passable

/-- Whether an output can be put at the end of its way.  A way can lead through
its own end and back. -/
def spotFree (tree : Tree) (output : String) : Bool :=
  namesFile output && admits (tree.locate output)
    && !(tree.wayTo output).contains (tree.locate output)
    && tree.get? (tree.locate output) != some .directory

/-- Whether an output can be written. -/
def placed (tree : Tree) (output : String) : Bool := wayFree tree output && spotFree tree output

/-- How writing an output fares. -/
def placing (tree : Tree) (output : String) : Except Failure Unit :=
  if wayFree tree output then
    if spotFree tree output then .ok () else .error (.unwritable output)
  else .error (.uncreatable ((directory? output).getD ""))

theorem placing_eq_ok {tree : Tree} {output : String} :
    placing tree output = .ok () ↔ placed tree output = true := by
  unfold placing placed
  cases wayFree tree output <;> cases spotFree tree output <;> simp

/-- What an output needs to be written. -/
theorem placed_sound {tree : Tree} {output : String} (placed : placed tree output = true) :
    namesFile output = true ∧ tree.locate output ∉ tree.wayTo output ∧
      tree.get? (tree.locate output) ≠ some .directory := by
  have spot := (Bool.and_eq_true_iff.1 placed).2
  simp only [spotFree, Bool.and_eq_true, Bool.not_eq_true', List.contains_eq_mem,
    decide_eq_false_iff_not, bne_iff_ne] at spot
  exact ⟨spot.1.1.1, spot.1.2, spot.2⟩

/-- The directory of an output is what its way leads to. -/
theorem wayTo_eq_directory? (tree : Tree) (output : String) :
    tree.wayTo output =
      match directory? output with
      | some path => tree.working.way (Path.components path)
      | none => [] := by
  unfold directory? Tree.wayTo
  cases parent : Path.parent? output with
  | none =>
    obtain none | root := Path.components_of_parent?_eq_none parent
    · rw [none]
      rfl
    · rw [root]
      rfl
  | some path =>
    obtain ⟨last, whole⟩ := Path.components_parent? parent
    rw [whole, List.dropLast_concat]
    by_cases empty : path = ""
    · subst empty
      rfl
    · rw [Option.filter_some_pos (by simpa using empty)]

theorem made_subset (tree : Tree) (output : String) :
    made tree output ⊆ tree.wayTo output := by
  unfold made
  split
  · exact (List.takeWhile_sublist _).subset
  · exact List.nil_subset _

/-- The tree in which an output is written, if the way there is free. -/
def opened (tree : Tree) (output : String) : Bool × Tree :=
  match directory? output with
  | some path => tree.makeDirectories path
  | none => (true, tree)

@[simp] theorem working_opened (tree : Tree) (output : String) :
    (opened tree output).2.working = tree.working := by
  unfold opened
  split <;> simp

theorem opened_eq (tree : Tree) (output : String) :
    (opened tree output).1 = wayFree tree output ∧
      ∀ location, (opened tree output).2.get? location =
        if tree.get? location = none ∧ location ∈ made tree output then some .directory
        else tree.get? location := by
  unfold opened wayFree made
  rw [wayTo_eq_directory?]
  cases directory? output with
  | none => simp
  | some path =>
    unfold Tree.makeDirectories
    by_cases usable : Tree.usable path = true
    · simp [usable, Tree.makeWay_fst, Tree.get?_makeWay]
    · simp [usable]

/-- Once the directories for an output are made, its way leads through them. -/
theorem get?_opened {tree : Tree} {output : String} (free : wayFree tree output = true) :
    ∀ passed ∈ tree.wayTo output, (opened tree output).2.get? passed = some .directory := by
  intro passed mem
  obtain ⟨usable, open'⟩ := Bool.and_eq_true_iff.1 free
  have all := List.all_eq_true.1 open'
  have whole : made tree output = tree.wayTo output := by
    rw [made, if_pos usable]
    simpa using @List.takeWhile_append_of_pos _ _ _ [] all
  rw [(opened_eq tree output).2, whole]
  have passes := all passed mem
  unfold Tree.passable at passes
  split at passes
  · next found => simp [found]
  · contradiction
  · next missing => simp [missing, mem]

/-- The end of a way is free if it is so once the directories are made. -/
theorem spotFree_iff {tree : Tree} {output : String} (free : wayFree tree output = true) :
    (namesFile output = true ∧ admits (tree.locate output) = true ∧
      (opened tree output).2.get? (tree.locate output) ≠ some .directory) ↔
        spotFree tree output = true := by
  have spot : (opened tree output).2.get? (tree.locate output) ≠ some .directory ↔
      tree.locate output ∉ tree.wayTo output ∧
        tree.get? (tree.locate output) ≠ some .directory := by
    constructor
    · intro other
      have outside : tree.locate output ∉ tree.wayTo output := fun mem =>
        other (get?_opened free _ mem)
      refine ⟨outside, fun found => other ?_⟩
      rw [(opened_eq tree output).2, found, if_neg (by simp)]
    · rintro ⟨outside, other⟩
      rwa [(opened_eq tree output).2, if_neg fun made => outside (made_subset tree output made.2)]
  rw [spot]
  simp [spotFree, and_assoc]

theorem writeOutput_eq (tree : Tree) (output text : String) :
    (writeOutput Tree.disk output text).run tree =
      if (opened tree output).1 then
        (if ((opened tree output).2.write output text).1 then .ok ()
          else .error (.unwritable output),
          ((opened tree output).2.write output text).2)
      else (.error (.uncreatable ((directory? output).getD "")), (opened tree output).2) := by
  unfold writeOutput opened
  change StateT.run (match directory? output with | some _ => _ | none => _) tree = _
  cases directory? output with
  | none =>
    cases written : tree.write output text with
    | mk done after => simp [Tree.disk, written]; rfl
  | some path =>
    cases made : tree.makeDirectories path with
    | mk free between =>
      cases free with
      | false => simp [Tree.disk, made]; rfl
      | true =>
        cases written : between.write output text with
        | mk done after => simp [Tree.disk, made, written]; rfl

@[simp] theorem working_writeOutput (tree : Tree) (output text : String) :
    ((writeOutput Tree.disk output text).run tree).2.working = tree.working := by
  rw [writeOutput_eq]
  split <;> simp

/-- How writing an output fares, and what stands where afterwards. -/
theorem writeOutput_run (tree : Tree) (output text : String) :
    ((writeOutput Tree.disk output text).run tree).1 = placing tree output ∧
      ∀ location, ((writeOutput Tree.disk output text).run tree).2.get? location =
        if placed tree output = true ∧ location = tree.locate output then
          some (.file (.text text))
        else if tree.get? location = none ∧ location ∈ made tree output then some .directory
        else tree.get? location := by
  obtain ⟨opens, between⟩ := opened_eq tree output
  rw [writeOutput_eq, opens]
  unfold placing placed
  by_cases free : wayFree tree output = true
  · have spot := spotFree_iff free
    have locates := Tree.locate_congr (working_opened tree output)
    have way := Tree.wayTo_congr (working_opened tree output)
    rw [if_pos free, if_pos free, Tree.write_eq (way ▸ get?_opened free), locates]
    by_cases able : spotFree tree output = true
    · rw [if_pos (spot.2 able)]
      refine ⟨by simp [able], fun location => ?_⟩
      rw [Tree.get?_put (spot.2 able).2.2, between]
      simp [free, able]
    · rw [if_neg (fun given => able (spot.1 given))]
      refine ⟨by simp [able], fun location => ?_⟩
      rw [between]
      simp [able]
  · rw [if_neg free, if_neg free]
    refine ⟨rfl, fun location => ?_⟩
    rw [between]
    simp [free]

/-! ## Sources -/

/-- The code for a source, if there is any to write. -/
def prepared (tree : Tree) (config : Config) (task : Task) : Except Failure String :=
  if Path.same task.2 task.1.path then .error (.overwritesInput task.1.path)
  else
    match tree.read? task.1.path with
    | none => .error (.unreadable task.1.path)
    | some text => compileText config task.1.path text

/-- The code for a source is the translation of its text. -/
theorem prepared_eq_ok {tree : Tree} {config : Config} {task : Task} {compiled : String}
    (h : prepared tree config task = .ok compiled) :
    ∃ text, tree.read? task.1.path = some text ∧
      Translator.plain.translate config text = .ok compiled := by
  unfold prepared at h
  split at h
  · contradiction
  split at h
  · contradiction
  · next text same =>
    unfold compileText at h
    split at h
    · next output translated =>
      cases h
      exact ⟨text, same, translated⟩
    · contradiction

/-- How a source fares in a tree. -/
def fate (tree : Tree) (config : Config) (task : Task) : Except Failure Unit := do
  let _ ← prepared tree config task
  placing tree task.2

/-- The text that is written for a source, if all goes well. -/
def written? (tree : Tree) (config : Config) (task : Task) : Option String :=
  match prepared tree config task with
  | .ok text => if placed tree task.2 then some text else none
  | .error _ => none

/-- The locations where there are directories after a source was compiled, even if
there was nothing before. -/
def madeFor (tree : Tree) (config : Config) (task : Task) : List Location :=
  match prepared tree config task with
  | .ok _ => made tree task.2
  | .error _ => []

theorem madeFor_subset (tree : Tree) (config : Config) (task : Task) :
    madeFor tree config task ⊆ tree.wayTo task.2 := by
  unfold madeFor
  split
  · exact made_subset tree task.2
  · exact List.nil_subset _

/-- What a source that is compiled without failure has, and what it needs. -/
theorem written?_eq_some {tree : Tree} {config : Config} {task : Task} {text : String} :
    written? tree config task = some text ↔
      prepared tree config task = .ok text ∧ placed tree task.2 = true := by
  unfold written?
  cases prepared tree config task with
  | error failure => simp
  | ok own => by_cases free : placed tree task.2 = true <;> simp [free]

theorem fate_eq_ok {tree : Tree} {config : Config} {task : Task} :
    fate tree config task = .ok () ↔ ∃ text, written? tree config task = some text := by
  simp only [written?_eq_some, fate]
  cases prepared tree config task with
  | error failure => simp [Bind.bind, Except.bind]
  | ok text => simp [Bind.bind, Except.bind, placing_eq_ok]

/-- What is put at a location when a source is compiled, if anything. -/
def change? (tree : Tree) (config : Config) (task : Task) (location : Location) : Option Entry :=
  if location = tree.locate task.2 ∧ (written? tree config task).isSome then
    (written? tree config task).map fun text => .file (.text text)
  else if tree.get? location = none ∧ location ∈ madeFor tree config task then some .directory
  else none

/-- All that is put anywhere is an output, or a directory on the way to one. -/
theorem change?_eq_some {tree : Tree} {config : Config} {task : Task} {location : Location}
    {entry : Entry} :
    change? tree config task location = some entry ↔
      (∃ text, written? tree config task = some text ∧ location = tree.locate task.2 ∧
        entry = .file (.text text)) ∨
      (entry = .directory ∧ tree.get? location = none ∧ location ∈ madeFor tree config task) := by
  unfold change?
  split
  · next here =>
    obtain ⟨rfl, given⟩ := here
    obtain ⟨text, same⟩ := Option.isSome_iff_exists.1 given
    have outside : tree.locate task.2 ∉ madeFor tree config task := fun mem =>
      (placed_sound (written?_eq_some.1 same).2).2.1 (madeFor_subset tree config task mem)
    simp [same, outside, eq_comm]
  · next apart =>
    have none : ¬ ∃ text, written? tree config task = some text ∧
        location = tree.locate task.2 ∧ entry = .file (.text text) := by
      rintro ⟨text, given, here, -⟩
      exact apart ⟨here, by rw [given]; rfl⟩
    rw [or_iff_right none]
    split
    · next made => simp [made, eq_comm]
    · next other =>
      simp only [reduceCtorEq, false_iff]
      exact fun made => other made.2

/-- Where something was, a file is replaced by the output. -/
theorem change?_replaces {tree : Tree} {config : Config} {task : Task} {location : Location}
    {entry old : Entry} (change : change? tree config task location = some entry)
    (found : tree.get? location = some old) :
    location = tree.locate task.2 ∧ old ≠ .directory ∧ entry ≠ .directory := by
  obtain ⟨text, given, rfl, rfl⟩ | ⟨-, missing, -⟩ := change?_eq_some.1 change
  · obtain ⟨-, -, noDirectory⟩ := placed_sound (written?_eq_some.1 given).2
    exact ⟨rfl, fun directory => noDirectory (directory ▸ found), by simp⟩
  · rw [missing] at found
    contradiction

theorem compileSource_eq (tree : Tree) (config : Config) (task : Task) :
    (compileSource Tree.disk config task.1 task.2).run tree =
      match prepared tree config task with
      | .error failure => (.error failure, tree)
      | .ok text => (writeOutput Tree.disk task.2 text).run tree := by
  unfold compileSource prepared
  split
  · rfl
  · change StateT.run (match tree.read? task.1.path with | none => _ | some _ => _) tree = _
    cases tree.read? task.1.path with
    | none => rfl
    | some text =>
      change StateT.run (match compileText config task.1.path text with
        | .error _ => _ | .ok _ => _) tree = match compileText config task.1.path text with
        | .error _ => _ | .ok _ => _
      cases compileText config task.1.path text with
      | error => rfl
      | ok => rfl

/-- How a source fares, and what stands where afterwards. -/
theorem compileSource_run (tree : Tree) (config : Config) (task : Task) :
    ((compileSource Tree.disk config task.1 task.2).run tree).1 = fate tree config task ∧
      ∀ location, ((compileSource Tree.disk config task.1 task.2).run tree).2.get? location =
        (change? tree config task location).or (tree.get? location) := by
  rw [compileSource_eq]
  unfold fate change? written? madeFor
  cases prepared tree config task with
  | error failure => simp [Bind.bind, Except.bind]
  | ok text =>
    obtain ⟨fares, stands⟩ := writeOutput_run tree task.2 text
    refine ⟨fares, fun location => ?_⟩
    rw [stands]
    by_cases free : placed tree task.2 = true
    · by_cases here : location = tree.locate task.2
      · simp [free, here]
      · simp only [free, here, true_and, false_and, if_false]
        split <;> rfl
    · simp only [free, Bool.false_eq_true, false_and, and_false, if_false, Option.isSome_none]
      split <;> rfl

/-- A source whose output has the same path changes nothing. -/
theorem change?_of_same {tree : Tree} {config : Config} {task : Task}
    (same : Path.same task.2 task.1.path = true) (location : Location) :
    change? tree config task location = none := by
  have refused : prepared tree config task = .error (.overwritesInput task.1.path) := if_pos same
  simp [change?, written?, madeFor, refused]

@[simp] theorem working_compileSource (tree : Tree) (config : Config) (task : Task) :
    ((compileSource Tree.disk config task.1 task.2).run tree).2.working = tree.working := by
  rw [compileSource_eq]
  split <;> simp

/-! ## What is kept -/

/-- Nothing of a tree is lost in another one, except for files at certain locations,
where there are other files now. -/
structure Grown (tree other : Tree) (replaced : Location → Prop) : Prop where
  home : other.working = tree.working
  kept : ∀ location entry, tree.get? location = some entry → other.get? location = some entry ∨
    replaced location ∧ entry ≠ .directory ∧ other.get? location ≠ some .directory ∧
      other.get? location ≠ none

namespace Grown

variable {tree between other : Tree} {replaced : Location → Prop}

theorem refl (tree : Tree) (replaced : Location → Prop) : Grown tree tree replaced :=
  ⟨rfl, fun _ _ found => .inl found⟩

theorem trans (first : Grown tree between replaced) (second : Grown between other replaced) :
    Grown tree other replaced := by
  refine ⟨second.home.trans first.home, fun location entry found => ?_⟩
  obtain kept | ⟨here, file, noDirectory, some⟩ := first.kept location entry found
  · exact second.kept location entry kept
  · obtain ⟨entry', found'⟩ := Option.ne_none_iff_exists'.1 some
    obtain kept | ⟨-, -, noDirectory', some'⟩ := second.kept location entry' found'
    · exact .inr ⟨here, file, by rwa [kept, ← found'], by rwa [kept, ← found']⟩
    · exact .inr ⟨here, file, noDirectory', some'⟩

theorem mono {wider : Location → Prop} (grown : Grown tree other replaced)
    (covers : ∀ location, replaced location → wider location) : Grown tree other wider := by
  refine ⟨grown.home, fun location entry found => ?_⟩
  obtain kept | ⟨here, rest⟩ := grown.kept location entry found
  · exact .inl kept
  · exact .inr ⟨covers location here, rest⟩

theorem directory (grown : Grown tree other replaced) {location : Location}
    (found : tree.get? location = some .directory) : other.get? location = some .directory := by
  obtain kept | ⟨-, file, -⟩ := grown.kept location .directory found
  · exact kept
  · exact absurd rfl file

theorem get?_eq (grown : Grown tree other replaced) {location : Location}
    (some : tree.get? location ≠ none) (apart : ¬ replaced location) :
    other.get? location = tree.get? location := by
  obtain ⟨entry, found⟩ := Option.ne_none_iff_exists'.1 some
  obtain kept | ⟨here, -⟩ := grown.kept location entry found
  · rw [kept, found]
  · exact absurd here apart

end Grown

/-- Nothing that was there is lost, except for what the output replaces; and a source whose
output has the same path is not compiled, so that its output replaces nothing. -/
theorem grown_compileSource (tree : Tree) (config : Config) (task : Task) :
    Grown tree ((compileSource Tree.disk config task.1 task.2).run tree).2 fun location =>
      location = tree.locate task.2 ∧ ¬ Path.same task.2 task.1.path := by
  refine ⟨working_compileSource tree config task, fun location entry found => ?_⟩
  rw [(compileSource_run tree config task).2]
  cases change : change? tree config task location with
  | none => exact .inl found
  | some own =>
    obtain ⟨here, file, file'⟩ := change?_replaces change found
    have differs : ¬ Path.same task.2 task.1.path := fun same => by
      rw [change?_of_same same] at change
      contradiction
    exact .inr ⟨⟨here, differs⟩, file, by simpa using file', by simp⟩

/-- After a source was compiled without failure, its output holds the code. -/
theorem get?_output {tree : Tree} {config : Config} {task : Task} {text : String}
    (given : written? tree config task = some text) :
    ((compileSource Tree.disk config task.1 task.2).run tree).2.get? (tree.locate task.2) =
      some (.file (.text text)) := by
  rw [(compileSource_run tree config task).2,
    change?_eq_some.2 (.inl ⟨text, given, rfl, rfl⟩), Option.some_or]

/-- The way to an output leads through directories, once it is written. -/
theorem get?_wayTo {tree : Tree} {config : Config} {task : Task} {text : String}
    (given : written? tree config task = some text) :
    ∀ passed ∈ tree.wayTo task.2,
      ((compileSource Tree.disk config task.1 task.2).run tree).2.get? passed =
        some .directory := by
  intro passed mem
  obtain ⟨ready, free⟩ := written?_eq_some.1 given
  have opens := get?_opened (Bool.and_eq_true_iff.1 free).1 passed mem
  rw [(opened_eq tree task.2).2] at opens
  rw [(compileSource_run tree config task).2]
  split at opens
  · next made =>
    have own : passed ∈ madeFor tree config task := by
      rw [madeFor, ready]
      exact made.2
    rw [change?_eq_some.2 (.inr ⟨rfl, made.1, own⟩), Option.some_or]
  · cases change : change? tree config task passed with
    | none => exact opens
    | some entry =>
      obtain ⟨-, -, rfl, -⟩ | ⟨rfl, -⟩ := change?_eq_some.1 change
      · exact absurd mem (placed_sound free).2.1
      · rfl

end InlineMarkup.Compile
