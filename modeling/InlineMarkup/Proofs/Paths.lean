import InlineMarkup.Files.Sources
import InlineMarkup.Proofs.Spacing

/-!
# InlineMarkup.Proofs.Paths

How the components of a path follow from its text.  A path is cut at its slashes
(`Path.components_eq`), so whatever stands behind a slash adds its own components
(`Path.steps_append`).  All that is done with paths comes down to that:

* `Path.steps_trimTail`: what is trimmed from the end of a path has no components;
* `Path.components_parent?`: the parent of a path has all its components but the last;
* `Path.components_withExtension?`: another extension changes the last component only;
* `Path.components_join`: names below a directory come after its components.
-/

namespace InlineMarkup.Path

/-! ## Components of texts -/

/-- The component that the first part of a path adds by where it stands. -/
def leading : List (List Char) → List Component
  | [] :: _ :: _ => [.root]
  | ['.'] :: _ => [.here]
  | _ => []

/-- The components of a path that is given by its characters. -/
def steps (text : List Char) : List Component :=
  leading (Text.splitAt '/' text) ++ (Text.splitAt '/' text).filterMap component?

theorem components_eq (path : String) : components path = steps path.toList := by
  unfold components steps
  split
  · next second rest same => simp [same, leading, component?]
  · next rest same => simp [same, leading, component?]
  · next absolute relative =>
    generalize Text.splitAt '/' path.toList = parts at absolute relative
    unfold leading
    split
    · exact absurd rfl (absolute _ _)
    · exact absurd rfl (relative _)
    · rfl

theorem leading_append {parts more other : List (List Char)} (some : parts ≠ [])
    (before : more ≠ []) (before' : other ≠ []) :
    leading (parts ++ more) = leading (parts ++ other) := by
  obtain ⟨part, parts, rfl⟩ := List.exists_cons_of_ne_nil some
  obtain ⟨_, _, rfl⟩ := List.exists_cons_of_ne_nil before
  obtain ⟨_, _, rfl⟩ := List.exists_cons_of_ne_nil before'
  cases parts <;> unfold leading <;> split <;> simp_all

/-- What stands behind a slash adds its own components. -/
theorem steps_append (a b : List Char) :
    steps (a ++ '/' :: b) = steps (a ++ ['/']) ++ (Text.splitAt '/' b).filterMap component? := by
  have empty : Text.splitAt '/' [] = [[]] := rfl
  have some (text : List Char) : Text.splitAt '/' text ≠ [] := Text.splitFrom_ne_nil '/' [] text
  simp only [steps, Text.splitAt, Text.splitFrom_append] at *
  rw [leading_append (some a) (some b) (some []), empty]
  simp [component?]

/-- A slash at the end does not count, unless it is the root. -/
theorem steps_slash {text : List Char} (visible : text ≠ []) :
    steps (text ++ ['/']) = steps text := by
  have empty : Text.splitFrom '/' [] [] = [[]] := rfl
  have first :
      leading (Text.splitFrom '/' [] text ++ [[]]) = leading (Text.splitFrom '/' [] text) := by
    match text with
    | [] => contradiction
    | c :: rest =>
      rw [Text.splitFrom]
      split
      · rw [List.cons_append]
        obtain ⟨part, parts, same⟩ :=
          List.exists_cons_of_ne_nil (Text.splitFrom_ne_nil '/' [] rest)
        rw [same]
        rfl
      · obtain ⟨part, parts, same⟩ := Text.exists_splitFrom '/' [c] rest
        rw [same, List.cons_append]
        unfold leading
        split <;> simp_all
  simp only [steps, Text.splitAt, Text.splitFrom_append, empty, first]
  simp [component?]

/-! ## Names -/

/-- What stands before the last name of a path: nothing, or a path that ends in a
slash. -/
def Opens (before : List Char) : Prop := before = [] ∨ ∃ text, before = text ++ ['/']

/-- A text that can stand between slashes and be the name of something. -/
structure IsName (name : List Char) : Prop where
  noSlash : '/' ∉ name
  named : component? name = some (.name (String.ofList name))

instance (name : List Char) : Decidable (IsName name) :=
  decidable_of_iff ('/' ∉ name ∧ component? name = some (.name (String.ofList name)))
    ⟨fun ⟨noSlash, named⟩ => ⟨noSlash, named⟩, fun ⟨noSlash, named⟩ => ⟨noSlash, named⟩⟩

theorem isName_iff {name : List Char} :
    IsName name ↔ '/' ∉ name ∧ name ≠ [] ∧ name ≠ ['.'] ∧ name ≠ ['.', '.'] := by
  constructor
  · rintro ⟨noSlash, named⟩
    refine ⟨noSlash, ?_, ?_, ?_⟩ <;> rintro rfl <;> contradiction
  · rintro ⟨noSlash, visible, noDot, noDots⟩
    exact ⟨noSlash, by simp [component?, visible, noDot, noDots]⟩

/-- Every name in a path can stand between slashes. -/
theorem isName_of_mem {path name : String} (mem : Component.name name ∈ components path) :
    IsName name.toList := by
  have parts := @Text.not_mem_splitFrom '/' [] List.not_mem_nil path.toList
  rw [components_eq, steps] at mem
  obtain first | later := List.mem_append.1 mem
  · unfold leading at first
    split at first <;> simp at first
  · obtain ⟨part, inside, own⟩ := List.mem_filterMap.1 later
    have same : name = String.ofList part := by
      unfold component? at own
      split at own
      · cases own
      split at own
      · cases own
      · exact (Component.name.inj (Option.some.inj own)).symm
    rw [same, String.toList_ofList]
    exact ⟨parts part inside, same ▸ own⟩

theorem splitAt_of_not_mem {text : List Char} (noSlash : '/' ∉ text) :
    Text.splitAt '/' text = [text] :=
  Text.splitFrom_of_not_mem noSlash []

/-- The last part of a path adds its component, if it is one. -/
theorem steps_last {before last : List Char} (opens : Opens before) (noSlash : '/' ∉ last)
    (noDot : last ≠ ['.']) : steps (before ++ last) = steps before ++ (component? last).toList := by
  have single : [last].filterMap component? = (component? last).toList := by
    cases own : component? last <;> simp [own]
  obtain rfl | ⟨text, rfl⟩ := opens
  · have none : leading [last] = [] := by
      unfold leading
      split <;> simp_all
    rw [List.nil_append, steps, splitAt_of_not_mem noSlash, none, single]
    rfl
  · rw [List.append_assoc, List.singleton_append, steps_append, splitAt_of_not_mem noSlash, single]

/-- A last part that is more than a dot is a component. -/
theorem steps_part {before last : List Char} (opens : Opens before) (noSlash : '/' ∉ last)
    (visible : last ≠ []) (noDot : last ≠ ['.']) :
    ∃ own, steps (before ++ last) = steps before ++ [own] ∧ component? last = some own ∧
      (own = .up ∨ ∃ name, own = .name name) := by
  rw [steps_last opens noSlash noDot]
  unfold component?
  rw [if_neg (by simp [visible, noDot])]
  split
  · exact ⟨_, rfl, rfl, .inl rfl⟩
  · exact ⟨_, rfl, rfl, .inr ⟨_, rfl⟩⟩

/-! ## The end of a path -/

theorem steps_dropTail (backwards : List Char) :
    steps (dropTail backwards).reverse = steps backwards.reverse := by
  fun_induction dropTail backwards with
  | case1 => rfl
  | case2 rest more ih =>
    have visible : rest.reverse ≠ [] := by
      intro none
      exact more (List.reverse_eq_nil_iff.1 none)
    rw [ih, List.reverse_cons, steps_slash visible]
  | case3 rest ih =>
    have dot : ('.' :: '/' :: rest).reverse = rest.reverse ++ ['/', '.'] := by simp
    rw [ih, List.reverse_cons, dot, steps_append rest.reverse ['.']]
    simp [Text.splitAt, Text.splitFrom, component?]
  | case4 => rfl

/-- What is trimmed from the end of a path has no components. -/
theorem steps_trimTail (path : List Char) : steps (trimTail path) = steps path := by
  rw [trimTail, steps_dropTail, List.reverse_reverse]

/-- What stands at the end of a trimmed path, last character first: the root, or the
end of a last part that counts. -/
theorem dropTail_cases (backwards : List Char) :
    dropTail backwards = ['/'] ∨
      ∀ rest, dropTail backwards ≠ '/' :: rest ∧ dropTail backwards ≠ '.' :: '/' :: rest := by
  fun_induction dropTail backwards with
  | case1 => exact .inl rfl
  | case2 rest more ih => exact ih
  | case3 rest ih => exact ih
  | case4 path single slash dotSlash =>
    exact .inr fun rest => ⟨fun same => slash rest same, fun same => dotSlash rest same⟩

/-- A path with a name at its end is trimmed already. -/
theorem trimTail_name {before name : List Char} (isName : IsName name) :
    trimTail (before ++ name) = before ++ name := by
  obtain ⟨noSlash, visible, noDot, -⟩ := isName_iff.1 isName
  have kept : dropTail (before ++ name).reverse = (before ++ name).reverse := by
    rw [List.reverse_append]
    have noSlash' : '/' ∉ name.reverse := by simpa using noSlash
    match back : name.reverse with
    | [] => exact absurd (List.reverse_eq_nil_iff.1 back) visible
    | [c] =>
      rw [back] at noSlash'
      have single : name = [c] := by rw [← List.reverse_reverse name, back]; rfl
      rw [List.singleton_append]
      unfold dropTail
      split <;> simp_all
    | c :: d :: rest =>
      rw [back] at noSlash'
      unfold dropTail
      split <;> simp_all
  rw [trimTail, kept, List.reverse_reverse]

/-- Where a trimmed path is cut before its last part. -/
theorem exists_cut (path : List Char) :
    ∃ before last, trimTail path = before ++ last ∧ Opens before ∧ '/' ∉ last ∧
      (trimTail path).reverse.dropWhile (· != '/') = before.reverse ∧
      (trimTail path).reverse.takeWhile (· != '/') = last.reverse := by
  refine ⟨((trimTail path).reverse.dropWhile (· != '/')).reverse,
    ((trimTail path).reverse.takeWhile (· != '/')).reverse, ?_, ?_, ?_, ?_, ?_⟩
  · rw [← List.reverse_append, List.takeWhile_append_dropWhile, List.reverse_reverse]
  · match same : (trimTail path).reverse.dropWhile (· != '/') with
    | [] => exact .inl rfl
    | c :: rest =>
      have stop : c = '/' := by
        have := List.head?_dropWhile_not (· != '/') (trimTail path).reverse
        rw [same] at this
        simpa using this
      exact .inr ⟨rest.reverse, by rw [List.reverse_cons, stop]⟩
  · intro mem
    have := List.all_eq_true.1 List.all_takeWhile _ (List.mem_reverse.1 mem)
    simp at this
  · rw [List.reverse_reverse]
  · rw [List.reverse_reverse]

/-- The last part of a trimmed path, unless that is empty or the root, is a component. -/
theorem exists_last {path before last : List Char} (trimmed : trimTail path = before ++ last)
    (opens : Opens before) (noSlash : '/' ∉ last) (visible : trimTail path ≠ [])
    (below : trimTail path ≠ ['/']) :
    ∃ own, steps path = steps before ++ [own] ∧ (own = .here ∨ component? last = some own) := by
  rw [← steps_trimTail, trimmed]
  have back : dropTail path.reverse = last.reverse ++ before.reverse := by
    rw [← List.reverse_append, ← trimmed, trimTail, List.reverse_reverse]
  have ends := dropTail_cases path.reverse
  rw [trimTail] at below
  obtain root | ends := ends
  · rw [root] at below
    contradiction
  rw [back] at ends
  by_cases dot : last = ['.']
  · subst dot
    obtain rfl | ⟨text, rfl⟩ := opens
    · exact ⟨.here, rfl, .inl rfl⟩
    · exact absurd (by simp) (ends text.reverse).2
  · have some : last ≠ [] := by
      rintro rfl
      obtain rfl | ⟨text, rfl⟩ := opens
      · exact visible trimmed
      · exact (ends text.reverse).1 (by simp)
    obtain ⟨own, same, counts, -⟩ := steps_part opens noSlash some dot
    exact ⟨own, same, .inr counts⟩

/-- The parent of a path has all its components but the last. -/
theorem components_parent? {path parent : String} (h : parent? path = some parent) :
    ∃ last, components path = components parent ++ [last] := by
  obtain ⟨before, last, trimmed, opens, noSlash, front, back⟩ := exists_cut path.toList
  unfold parent? at h
  simp only [front, List.reverse_reverse] at h
  split at h
  · contradiction
  · next some =>
    cases h
    obtain ⟨visible, below⟩ := not_or.1 some
    rw [components_eq, components_eq, String.toList_ofList, steps_trimTail before]
    obtain ⟨own, same, -⟩ := exists_last trimmed opens noSlash
      (by rwa [ne_eq, ← List.reverse_eq_nil_iff]) (by rwa [ne_eq, ← List.reverse_inj])
    exact ⟨own, same⟩

theorem components_of_parent?_eq_none {path : String} (h : parent? path = none) :
    components path = [] ∨ components path = [.root] := by
  unfold parent? at h
  simp only [] at h
  split at h
  · next none =>
    rw [components_eq, ← steps_trimTail]
    rcases none with none | none
    · rw [List.reverse_eq_nil_iff.1 none]
      exact .inl rfl
    · rw [← List.reverse_reverse (trimTail _), none]
      exact .inr rfl
  · contradiction

/-- A path that is cut before its last name. -/
theorem components_cutName? {path : String} {before name : List Char}
    (h : cutName? path = some (before, name)) :
    trimTail path.toList = before ++ name ∧ Opens before ∧ IsName name ∧
      components path = steps before ++ [.name (String.ofList name)] := by
  obtain ⟨front, last, trimmed, opens, noSlash, atFront, back⟩ := exists_cut path.toList
  unfold cutName? at h
  simp only [atFront, back, List.reverse_reverse] at h
  split at h
  · contradiction
  · next proper =>
    obtain ⟨rfl, rfl⟩ := Prod.mk.inj (Option.some.inj h)
    have isName : IsName last := isName_iff.2 ⟨noSlash, by simpa [not_or] using proper⟩
    refine ⟨trimmed, opens, isName, ?_⟩
    rw [components_eq, ← steps_trimTail, trimmed,
      steps_last opens noSlash (isName_iff.1 isName).2.2.1, isName.named]
    rfl

/-- A path that ends in a name is cut before it. -/
theorem isSome_cutName? {path name : String} {first : List Component}
    (h : components path = first ++ [.name name]) : (cutName? path).isSome = true := by
  obtain ⟨before, last, trimmed, opens, noSlash, atFront, back⟩ := exists_cut path.toList
  rw [components_eq] at h
  have visible : trimTail path.toList ≠ [] := by
    intro empty
    rw [← steps_trimTail, empty] at h
    exact absurd h (by simp [steps, Text.splitAt, Text.splitFrom, leading, component?])
  have below : trimTail path.toList ≠ ['/'] := by
    intro root
    rw [← steps_trimTail, root] at h
    have ends := congrArg List.getLast? h
    simp [steps, Text.splitAt, Text.splitFrom, leading, component?] at ends
  obtain ⟨own, whole, counts⟩ := exists_last trimmed opens noSlash visible below
  have same : own = .name name := by
    have ends := congrArg List.getLast? (whole.symm.trans h)
    simpa using ends
  subst same
  obtain here | named := counts
  · contradiction
  · have isName : last ≠ [] ∧ last ≠ ['.'] ∧ last ≠ ['.', '.'] := by
      refine ⟨?_, ?_, ?_⟩ <;> rintro rfl <;> simp [component?] at named
    unfold cutName?
    simp only [atFront, back, List.reverse_reverse]
    rw [if_neg (by simpa [not_or] using isName)]
    rfl

/-- Where a path with a name at its end is cut. -/
theorem cutName?_name {path : String} {before name : List Char} (opens : Opens before)
    (isName : IsName name) (same : path.toList = before ++ name) :
    cutName? path = some (before, name) ∧ namesDirectory path = false := by
  obtain ⟨noSlash, proper⟩ := isName_iff.1 isName
  have trimmed : trimTail path.toList = before ++ name := by rw [same, trimTail_name isName]
  have other : ∀ c ∈ name.reverse, (c != '/') = true := by
    intro c mem
    exact bne_iff_ne.2 fun slash => noSlash (slash ▸ List.mem_reverse.1 mem)
  have stop : before.reverse.dropWhile (· != '/') = before.reverse ∧
      before.reverse.takeWhile (· != '/') = [] := by
    obtain rfl | ⟨text, rfl⟩ := opens
    · exact ⟨rfl, rfl⟩
    · simp
  have front : (before ++ name).reverse.dropWhile (· != '/') = before.reverse := by
    rw [List.reverse_append, List.dropWhile_append_of_pos other, stop.1]
  have back : (before ++ name).reverse.takeWhile (· != '/') = name.reverse := by
    rw [List.reverse_append, List.takeWhile_append_of_pos other, stop.2, List.append_nil]
  constructor
  · unfold cutName?
    simp only [trimmed, front, back, List.reverse_reverse]
    rw [if_neg (by simpa [not_or] using proper)]
  · rw [namesDirectory, trimmed, same]
    exact bne_self_eq_false _

/-! ## Extensions -/

theorem splitExtension_sound {name : List Char} (visible : name ≠ []) :
    (splitExtension name).1 ≠ [] ∧ (splitExtension name).1 ⊆ name := by
  unfold splitExtension
  simp only []
  split
  · next first c stem same =>
    refine ⟨by simp, fun x mem => ?_⟩
    have inside : x ∈ name.reverse.dropWhile (· != '.') := by
      rw [same]
      exact List.mem_cons_of_mem _ (List.mem_reverse.1 mem)
    exact List.mem_reverse.1 ((List.dropWhile_sublist _).subset inside)
  · exact ⟨visible, List.Subset.refl name⟩

/-- Another extension changes the last component only. -/
theorem components_withExtension? {base extension output : String} {before name : List Char}
    (cut : cutName? base = some (before, name)) (file : namesDirectory base = false)
    (h : withExtension? base extension = some output) :
    ∃ last, components output = steps before ++ [last] ∧
      (last = .up ∨ ∃ name, last = .name name) := by
  obtain ⟨-, opens, isName, -⟩ := components_cutName? cut
  obtain ⟨noSlash, visible, -⟩ := isName_iff.1 isName
  obtain ⟨some, inside⟩ := splitExtension_sound visible
  have noSlash' : '/' ∉ (splitExtension name).1 := fun mem => noSlash (inside mem)
  unfold withExtension? at h
  rw [cut] at h
  split at h
  · contradiction
  next plain =>
  simp only [file] at h
  split at h
  · cases h
    rw [components_eq, String.toList_ofList]
    obtain ⟨own, same, -, kind⟩ :=
      @steps_part before ['.', '.'] opens (by decide) (by decide) (by decide)
    exact ⟨own, same, kind⟩
  next noDot =>
  split at h
  · cases h
    rw [components_eq, String.toList_ofList]
    obtain ⟨own, same, -, kind⟩ := steps_part opens noSlash' some (by simpa using noDot)
    exact ⟨own, same, kind⟩
  · cases h
    have whole : (String.ofList (before ++ (splitExtension name).1) ++ "." ++ extension).toList =
        before ++ ((splitExtension name).1 ++ '.' :: extension.toList) := by
      simp
    have noDot' : (splitExtension name).1 ++ '.' :: extension.toList ≠ ['.'] := by
      obtain ⟨c, rest, begins⟩ := List.exists_cons_of_ne_nil some
      simp [begins]
    rw [components_eq, whole]
    obtain ⟨own, same, -, kind⟩ :=
      steps_part opens (by simpa [noSlash'] using plain) (by simp) noDot'
    exact ⟨own, same, kind⟩

/-! ## Names below a directory -/

theorem splitAt_intercalate {names : List String} (some : names ≠ [])
    (named : ∀ name ∈ names, IsName name.toList) :
    Text.splitAt '/' ("/".intercalate names).toList = names.map String.toList := by
  induction names with
  | nil => contradiction
  | cons name rest ih =>
    obtain ⟨first, later⟩ := List.forall_mem_cons.1 named
    match rest with
    | [] => simp [splitAt_of_not_mem first.noSlash]
    | second :: rest =>
      have whole : ("/".intercalate (name :: second :: rest)).toList =
          name.toList ++ '/' :: ("/".intercalate (second :: rest)).toList := by
        simp [String.intercalate_cons_cons]
      rw [whole, Text.splitAt, Text.splitFrom_append, Text.splitFrom_of_not_mem first.noSlash]
      rw [Text.splitAt] at ih
      rw [ih (by simp) later]
      rfl

theorem filterMap_names {names : List String} (named : ∀ name ∈ names, IsName name.toList) :
    (names.map String.toList).filterMap component? = names.map Component.name := by
  induction names with
  | nil => rfl
  | cons name rest ih =>
    obtain ⟨first, later⟩ := List.forall_mem_cons.1 named
    simp [first.named, ih later]

/-- No name stands for anything by where it stands. -/
theorem leading_names {names : List String} (named : ∀ name ∈ names, IsName name.toList) :
    leading (names.map String.toList) = [] := by
  match names with
  | [] => rfl
  | name :: rest =>
    obtain ⟨-, visible, noDot, -⟩ := isName_iff.1 (List.forall_mem_cons.1 named).1
    rw [List.map_cons]
    unfold leading
    split <;> simp_all

/-- Names make a path that is not absolute. -/
theorem head?_intercalate {names : List String} (some : names ≠ [])
    (named : ∀ name ∈ names, IsName name.toList) :
    ("/".intercalate names).toList.head? ≠ .some '/' := by
  intro absolute
  have parts := splitAt_intercalate some named
  obtain ⟨name, rest, rfl⟩ := List.exists_cons_of_ne_nil some
  obtain ⟨text, begins⟩ := List.head?_eq_some_iff.1 absolute
  rw [begins, Text.splitAt, Text.splitFrom, if_pos rfl] at parts
  have empty : name.toList = [] := (List.head_eq_of_cons_eq parts).symm
  exact (isName_iff.1 (named name List.mem_cons_self)).2.1 empty

/-- A path below a directory stands behind the directory and a slash. -/
theorem exists_join (directory : String) {path : String} (relative : path.toList.head? ≠ some '/') :
    ∃ before, Opens before ∧ steps before = components directory ∧
      (join directory path).toList = before ++ path.toList := by
  rw [components_eq]
  unfold join
  split
  · next bare =>
    have empty : directory = "" := by simpa [relative] using bare
    exact ⟨[], .inl rfl, by rw [empty]; rfl, rfl⟩
  split
  · next ends =>
    obtain ⟨text, same⟩ := List.getLast?_eq_some_iff.1 ends
    exact ⟨directory.toList, .inr ⟨text, same⟩, rfl, String.toList_append⟩
  · next visible _ =>
    have some : directory.toList ≠ [] := by simpa using (not_or.1 visible).2
    exact ⟨directory.toList ++ ['/'], .inr ⟨_, rfl⟩, steps_slash some, by simp⟩

/-- Names below a directory come after its components. -/
theorem components_join (directory : String) {names : List String} (some : names ≠ [])
    (named : ∀ name ∈ names, IsName name.toList) :
    components (join directory ("/".intercalate names)) =
      components directory ++ names.map .name := by
  obtain ⟨before, opens, same, whole⟩ := exists_join directory (head?_intercalate some named)
  have own : (Text.splitAt '/' ("/".intercalate names).toList).filterMap component? =
      names.map .name := by
    rw [splitAt_intercalate some named, filterMap_names named]
  rw [← same, components_eq, whole]
  obtain rfl | ⟨text, rfl⟩ := opens
  · rw [List.nil_append, steps, own, splitAt_intercalate some named, leading_names named]
    rfl
  · rw [List.append_assoc, List.singleton_append, steps_append, own]

theorem Opens.append {before after : List Char} (first : Opens before) (second : Opens after) :
    Opens (before ++ after) := by
  obtain rfl | ⟨text, rfl⟩ := second
  · rwa [List.append_nil]
  · exact .inr ⟨before ++ text, by rw [List.append_assoc]⟩

/-- The last of some names stands behind the others and a slash. -/
theorem exists_intercalate (names : List String) (last : String) :
    ∃ front, Opens front ∧ ("/".intercalate (names ++ [last])).toList = front ++ last.toList := by
  induction names with
  | nil => exact ⟨[], .inl rfl, by simp⟩
  | cons name rest ih =>
    obtain ⟨front, opens, same⟩ := ih
    refine ⟨(name.toList ++ ['/']) ++ front, Opens.append (.inr ⟨_, rfl⟩) opens, ?_⟩
    obtain ⟨second, others, more⟩ := List.exists_cons_of_ne_nil
      (List.append_ne_nil_of_right_ne_nil rest (List.cons_ne_nil last []))
    rw [List.cons_append, more, String.intercalate_cons_cons, ← more, String.toList_append,
      String.toList_append, same, ← List.append_assoc]
    rfl

/-- A name at the end of names below a directory is the name of the whole path. -/
theorem cutName?_join (directory : String) {names : List String} {last : String}
    (named : ∀ name ∈ names ++ [last], IsName name.toList) :
    namesDirectory (join directory ("/".intercalate (names ++ [last]))) = false ∧
      ∃ before, cutName? (join directory ("/".intercalate (names ++ [last]))) =
          some (before, last.toList) ∧
        steps before = components directory ++ names.map .name := by
  have whole := components_join directory (by simp) named
  obtain ⟨before, opens, -, placed⟩ := exists_join directory (head?_intercalate (by simp) named)
  obtain ⟨front, opens', same⟩ := exists_intercalate names last
  rw [same, ← List.append_assoc] at placed
  obtain ⟨cut, file⟩ := cutName?_name (opens.append opens') (named last (by simp)) placed
  refine ⟨file, before ++ front, cut, ?_⟩
  obtain ⟨-, -, -, components⟩ := components_cutName? cut
  rw [whole, List.map_append, ← List.append_assoc] at components
  exact (List.append_inj_left' components rfl).symm

/-- The output for names below a directory. -/
theorem components_output {directory extension output : String} {names : List String}
    {last : String} (named : ∀ name ∈ names ++ [last], IsName name.toList)
    (h : withExtension? (join directory ("/".intercalate (names ++ [last]))) extension =
      some output) :
    ∃ own, components output = components directory ++ names.map .name ++ [own] ∧
      (own = .up ∨ ∃ name, own = .name name) := by
  obtain ⟨file, before, cut, same⟩ := cutName?_join directory named
  rw [← same]
  exact components_withExtension? cut file h

end InlineMarkup.Path
