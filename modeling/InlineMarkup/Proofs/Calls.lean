import InlineMarkup.Proofs.Spacing
import InlineMarkup.Render

/-!
# InlineMarkup.Proofs.Calls

The code written for markup tells what the markup was.  Markup is `Node.Static`
if there is no code in it; what its code cannot tell is taken away by
`Node.normal`, which cuts texts into single literals, forgets which tags close
themselves and reads a flag as the string that is written for it.

Whatever is written ends by itself, so everything is proved in one form: if two
texts start with what is written for two things and go on in any way, then the
two things are the same and the texts go on alike.

* `Text.quoted_append_inj`, `Render.key_append_inj`, `Render.value_append_inj`:
  strings, keys and values, of which strings are read back by `Text.readLiteral`;
* `Text.intercalate_append_inj`: any such things with a separator between them;
* `Render.code_append_inj`: the call for a tag, on one line or on several.
-/

namespace InlineMarkup

/-! ## String literals -/

namespace Text

/-- The character that stands behind a backslash for another one. -/
def unescape (c : Char) : Char := if c = 'n' then '\n' else if c = 'r' then '\r' else c

/-- Reads a string literal from behind its first quote: the text it stands for,
and what comes after it.  `none` if it does not end. -/
def readLiteral : List Char → Option (List Char × List Char)
  | [] => none
  | ['\\'] => none
  | '\'' :: rest => some ([], rest)
  | '\\' :: c :: rest => (readLiteral rest).map fun (text, after) => (unescape c :: text, after)
  | c :: rest => (readLiteral rest).map fun (text, after) => (c :: text, after)

/-- A string literal is read as the text it was written for. -/
theorem readLiteral_escape (text rest : List Char) :
    readLiteral (text.flatMap escape ++ '\'' :: rest) = some (text, rest) := by
  induction text with
  | nil => rfl
  | cons c text ih =>
    rw [List.flatMap_cons, List.append_assoc, escape]
    split
    · next h => simp [readLiteral, ih, h, unescape]
    split
    · next h => simp [readLiteral, ih, h, unescape]
    split
    · next h => simp [readLiteral, ih, h, unescape]
    split
    · next h => simp [readLiteral, ih, h, unescape]
    · next backslash _ _ _ => simp [readLiteral, ih, backslash]

theorem quoted_append (text rest : List Char) :
    quoted text ++ rest = '\'' :: (text.flatMap escape ++ '\'' :: rest) := by
  simp [quoted]

theorem quoted_append_inj {a b r s : List Char} (h : quoted a ++ r = quoted b ++ s) :
    a = b ∧ r = s := by
  rw [quoted_append, quoted_append] at h
  have read := readLiteral_escape a r
  rw [List.tail_eq_of_cons_eq h, readLiteral_escape] at read
  cases read
  exact ⟨rfl, rfl⟩

/-! ## Words -/

/-- Words of certain characters, each followed by another character. -/
theorem word_append_inj {p : Char → Bool} {a b r s : List Char} {c d : Char}
    (first : ∀ x ∈ a, p x = true) (second : ∀ x ∈ b, p x = true) (stop : p c = false)
    (stop' : p d = false) (h : a ++ c :: r = b ++ d :: s) : a = b ∧ c :: r = d :: s := by
  induction a generalizing b with
  | nil =>
    cases b with
    | nil => exact ⟨rfl, h⟩
    | cons x b =>
      have same : c = x := List.head_eq_of_cons_eq h
      rw [same, second x List.mem_cons_self] at stop
      contradiction
  | cons x a ih =>
    cases b with
    | nil =>
      have same : x = d := List.head_eq_of_cons_eq h
      rw [← same, first x List.mem_cons_self] at stop'
      contradiction
    | cons y b =>
      obtain ⟨rfl, later⟩ := List.cons.inj h
      obtain ⟨rfl, same⟩ :=
        ih (List.forall_mem_cons.1 first).2 (List.forall_mem_cons.1 second).2 later
      exact ⟨rfl, same⟩

/-- Every character of a text is a separator or stands in one of the parts. -/
theorem forall_of_splitFrom {separator : Char} {part text : List Char} {P : Char → Prop}
    (h : ∀ piece ∈ splitFrom separator part text, ∀ c ∈ piece, P c) :
    (∀ c ∈ part, P c) ∧ ∀ c ∈ text, c = separator ∨ P c := by
  induction text generalizing part with
  | nil => simpa [splitFrom] using h
  | cons c text ih =>
    rw [splitFrom] at h
    split at h
    · next same =>
      obtain ⟨here, later⟩ := List.forall_mem_cons.1 h
      refine ⟨fun x mem => here x (List.mem_reverse.2 mem), ?_⟩
      exact List.forall_mem_cons.2 ⟨.inl same, (ih later).2⟩
    · obtain ⟨here, later⟩ := ih h
      obtain ⟨own, here⟩ := List.forall_mem_cons.1 here
      exact ⟨here, List.forall_mem_cons.2 ⟨.inr own, later⟩⟩

end Text

namespace Name

/-- Whether a name consists of identifiers with dots between them. -/
def isDotted (name : String) : Bool :=
  (Text.splitAt '.' name.toList).all fun part => isIdentifier (String.ofList part)

/-- The characters of dotted names. -/
def isDottedPart (c : Char) : Bool := c == '.' || isPart c

/-- A text that starts as an identifier does. -/
def Starts (text : List Char) : Prop := ∃ c rest, text = c :: rest ∧ isStart c = true

theorem Starts.ne_quote {text rest : List Char} (starts : Starts text) :
    text ≠ '\'' :: rest := by
  obtain ⟨c, more, rfl, start⟩ := starts
  rintro ⟨⟩
  revert start
  decide +kernel

theorem Starts.append {text : List Char} (starts : Starts text) (rest : List Char) :
    Starts (text ++ rest) := by
  obtain ⟨c, more, rfl, start⟩ := starts
  exact ⟨c, more ++ rest, rfl, start⟩

theorem starts_of_isIdentifier {name : String} (h : isIdentifier name = true) :
    Starts name.toList ∧ ∀ c ∈ name.toList, isPart c = true := by
  unfold isIdentifier at h
  split at h
  · contradiction
  · next c rest same =>
    rw [same]
    obtain ⟨start, parts⟩ := Bool.and_eq_true_iff.1 h
    exact ⟨⟨c, rest, rfl, start⟩,
      List.forall_mem_cons.2 ⟨isPart_of_isStart start, List.all_eq_true.1 parts⟩⟩

theorem starts_of_isDotted {name : String} (h : isDotted name = true) :
    Starts name.toList ∧ ∀ c ∈ name.toList, isDottedPart c = true := by
  have each : ∀ part ∈ Text.splitFrom '.' [] name.toList,
      isIdentifier (String.ofList part) = true := List.all_eq_true.1 h
  constructor
  · obtain ⟨first, others, same⟩ := Text.exists_splitFrom '.' [] name.toList
    have starts := (starts_of_isIdentifier (each first (by simp [same]))).1
    rw [String.toList_ofList] at starts
    match text : name.toList with
    | [] =>
      rw [text, Text.splitFrom] at same
      cases same
      exact starts
    | c :: rest =>
      rw [text, Text.splitFrom] at same
      split at same
      · cases same
        obtain ⟨_, _, none, _⟩ := starts
        contradiction
      · obtain ⟨more, others', same'⟩ := Text.exists_splitFrom '.' [c] rest
        rw [same'] at same
        cases same
        obtain ⟨_, _, begins, start⟩ := starts
        cases begins
        exact ⟨c, rest, rfl, start⟩
  · have parts : ∀ part ∈ Text.splitFrom '.' [] name.toList, ∀ c ∈ part, isPart c = true := by
      intro part mem c inside
      refine (starts_of_isIdentifier (each part mem)).2 c ?_
      rwa [String.toList_ofList]
    intro c mem
    rcases (Text.forall_of_splitFrom parts).2 c mem with rfl | part
    · rfl
    · rw [isDottedPart, part, Bool.or_true]

/-- A dotted name and a character that ends it. -/
theorem isDotted_append_inj {a b : String} {c : Char} {r s : List Char} (first : isDotted a = true)
    (second : isDotted b = true) (stop : isDottedPart c = false)
    (h : a.toList ++ c :: r = b.toList ++ c :: s) : a = b ∧ r = s := by
  obtain ⟨same, rest⟩ :=
    Text.word_append_inj (starts_of_isDotted first).2 (starts_of_isDotted second).2 stop stop h
  exact ⟨String.ext same, List.tail_eq_of_cons_eq rest⟩

end Name

/-! ## Lists -/

/-- Things that end by themselves, with a separator between them and something
else after the last. -/
theorem Text.intercalate_append_inj {α β : Type} {write : α → List Char} {tell : α → β}
    {separator stop : Char} (differ : separator ≠ stop) {rest r s : List Char}
    {first second : List α} (some : first ≠ []) (some' : second ≠ [])
    (each : ∀ x ∈ first, ∀ y ∈ second, ∀ r s,
      write x ++ r = write y ++ s → tell x = tell y ∧ r = s)
    (h : (separator :: rest).intercalate (first.map write) ++ stop :: r =
      (separator :: rest).intercalate (second.map write) ++ stop :: s) :
    first.map tell = second.map tell ∧ r = s := by
  induction first generalizing second with
  | nil => contradiction
  | cons x first ih =>
    match second with
    | [] => contradiction
    | y :: second =>
      have head := each x List.mem_cons_self y List.mem_cons_self
      match first, second with
      | [], [] =>
        simp only [List.map_cons, List.map_nil, List.intercalate_singleton] at h ⊢
        obtain ⟨same, later⟩ := head _ _ h
        exact ⟨by rw [same], List.tail_eq_of_cons_eq later⟩
      | [], y' :: second =>
        simp only [List.map_cons, List.map_nil, List.intercalate_singleton,
          List.intercalate_cons_cons, List.append_assoc] at h
        exact absurd (List.head_eq_of_cons_eq (head _ _ h).2).symm differ
      | x' :: first, [] =>
        simp only [List.map_cons, List.map_nil, List.intercalate_singleton,
          List.intercalate_cons_cons, List.append_assoc] at h
        exact absurd (List.head_eq_of_cons_eq (head _ _ h).2) differ
      | x' :: first, y' :: second =>
        simp only [List.map_cons, List.intercalate_cons_cons, List.append_assoc] at h ih ⊢
        obtain ⟨same, later⟩ := head _ _ h
        obtain ⟨following, after⟩ := @ih (y' :: second) (by simp) (by simp)
          (fun x mem y mem' => each x (.tail _ mem) y (.tail _ mem'))
          (List.append_cancel_left later)
        exact ⟨by rw [same, following, List.map_cons], after⟩

/-! ## What the code tells -/

/-- A value without code. -/
def AttrValue.Static : AttrValue → Prop
  | .string _ | .flag => True
  | .expression _ | .nested _ _ => False

/-- A value as far as the code for an attribute called `name` tells: a flag that
is not a boolean attribute is written as a string. -/
def AttrValue.normal (name : String) : AttrValue → AttrValue
  | .flag => if Name.isBooleanAttribute name then .flag else .string "true"
  | value => value

namespace Node

/-- A tree without code, apart from the names of its components. -/
inductive Static : Node → Prop
  | tag {kind : TagKind} {name : String} {attributes : Attributes} {children : List Node}
      {selfClosing : Bool} (reference : kind = .component → Name.isDotted name = true)
      (values : ∀ entry ∈ attributes, entry.2.Static) (inside : ∀ child ∈ children, Static child) :
      Static (.tag kind name attributes children selfClosing)
  | text {segments : List Segment} (literals : ∀ part ∈ segments, ∃ text, part = .literal text) :
      Static (.text segments)

mutual

/-- A node as far as the code for it tells.  Among the children of a tag, a text
is as much as its segments one by one, and that may be nothing. -/
def normal : Node → List Node
  | .tag kind name attributes children _ =>
    [.tag kind name (attributes.map fun entry => (entry.1, entry.2.normal entry.1))
      (normals children) false]
  | .text segments => segments.map fun part => .text [part]
  | .embedded source pieces => [.embedded source pieces]

/-- Nodes, one after the other, as far as the code for them tells. -/
def normals : List Node → List Node
  | [] => []
  | child :: rest => normal child ++ normals rest

end

/-- The arguments that a child of a tag gives: a text gives one for each segment. -/
def arguments : Node → List Node
  | .text segments => segments.map fun part => .text [part]
  | child => [child]

theorem normals_eq (children : List Node) :
    normals children = ((children.flatMap arguments).map normal).flatten := by
  rw [← List.flatMap_def]
  induction children with
  | nil => rfl
  | cons child rest ih =>
    rw [normals, List.flatMap_cons, List.flatMap_append, ih]
    cases child with
    | tag | embedded => simp [arguments]
    | text segments =>
      simp only [arguments, normal, List.flatMap_map, List.map_cons, List.map_nil]
      rw [List.map_eq_flatMap]

/-- An argument is a single literal or a tag among the children. -/
theorem Static.argument {children : List Node} (inside : ∀ child ∈ children, child.Static)
    {argument : Node} (mem : argument ∈ children.flatMap arguments) :
    (∃ text, argument = .text [.literal text]) ∨
      argument ∈ children ∧ ∃ kind name attributes kids selfClosing,
        argument = .tag kind name attributes kids selfClosing := by
  obtain ⟨child, among, mem⟩ := List.mem_flatMap.1 mem
  cases inside child among with
  | tag =>
    obtain rfl := List.mem_singleton.1 mem
    exact .inr ⟨among, _, _, _, _, _, rfl⟩
  | text literals =>
    obtain ⟨part, here, rfl⟩ := List.mem_map.1 mem
    obtain ⟨text, rfl⟩ := literals part here
    exact .inl ⟨text, rfl⟩

end Node

/-- The functions called have dotted names. -/
structure Config.Dotted (config : Config) : Prop where
  element : Name.isDotted config.element = true
  component : Name.isDotted config.component = true
  text : ∀ factory, config.textFactory? = some factory → Name.isDotted factory = true

namespace Render

/-! ## Attributes -/

theorem key_append_inj {a b : String} {r s : List Char}
    (h : (key a).toList ++ ':' :: r = (key b).toList ++ ':' :: s) : a = b ∧ r = s := by
  unfold key at h
  split at h <;> split at h
  · next first second =>
    obtain ⟨same, later⟩ := Text.word_append_inj (Name.starts_of_isIdentifier first).2
      (Name.starts_of_isIdentifier second).2 (by decide +kernel) (by decide +kernel) h
    exact ⟨String.ext same, List.tail_eq_of_cons_eq later⟩
  · next first _ =>
    rw [Text.quote, String.toList_ofList, Text.quoted_append] at h
    exact absurd h ((Name.starts_of_isIdentifier first).1.append _).ne_quote
  · next _ second =>
    rw [Text.quote, String.toList_ofList, Text.quoted_append] at h
    exact absurd h.symm ((Name.starts_of_isIdentifier second).1.append _).ne_quote
  · rw [Text.quote, Text.quote, String.toList_ofList, String.toList_ofList] at h
    obtain ⟨same, later⟩ := Text.quoted_append_inj h
    exact ⟨String.ext same, List.tail_eq_of_cons_eq later⟩

variable {config : Config} {depth : Nat}

/-- The code for a value, without hooks. -/
def valueCode (config : Config) (depth : Nat) (name : String) (given : AttrValue) : List Char :=
  (Id.run (value Hooks.none config depth name given)).toList

theorem valueCode_cases (name : String) {given : AttrValue} (static : given.Static) :
    (∃ text, given.normal name = .string text ∧
      valueCode config depth name given = Text.quoted text.toList) ∨
      given.normal name = .flag ∧ valueCode config depth name given = ['t', 'r', 'u', 'e'] := by
  cases given with
  | string text => exact .inl ⟨text, rfl, String.toList_ofList⟩
  | flag =>
    simp only [AttrValue.normal, valueCode, value]
    split
    · exact .inr ⟨rfl, rfl⟩
    · exact .inl ⟨"true", rfl, rfl⟩
  | expression | nested => contradiction

theorem value_append_inj {name : String} {a b : AttrValue} {r s : List Char} (first : a.Static)
    (second : b.Static)
    (h : valueCode config depth name a ++ r = valueCode config depth name b ++ s) :
    a.normal name = b.normal name ∧ r = s := by
  obtain ⟨text, tells, written⟩ | ⟨tells, written⟩ := valueCode_cases name first <;>
  obtain ⟨text', tells', written'⟩ | ⟨tells', written'⟩ := valueCode_cases name second
  · rw [written, written'] at h
    obtain ⟨same, later⟩ := Text.quoted_append_inj h
    exact ⟨by rw [tells, tells', String.ext same], later⟩
  · rw [written, written', Text.quoted_append] at h
    cases List.head_eq_of_cons_eq h
  · rw [written, written', Text.quoted_append] at h
    cases List.head_eq_of_cons_eq h
  · rw [written, written'] at h
    exact ⟨by rw [tells, tells'], List.append_cancel_left h⟩

/-- The entry for an attribute, without hooks. -/
def entryCode (config : Config) (depth : Nat) (entry : String × AttrValue) : List Char :=
  (key entry.1).toList ++ ':' :: ' ' :: valueCode config depth entry.1 entry.2

theorem entries_eq (attributes : Attributes) :
    (Id.run (entries Hooks.none config depth attributes)).map String.toList =
      attributes.map (entryCode config depth) := by
  induction attributes with
  | nil => rfl
  | cons entry rest ih =>
    rw [List.map_cons, ← ih]
    simp [entries, entryCode, valueCode]

theorem entry_append_inj {a b : String × AttrValue} {r s : List Char} (first : a.2.Static)
    (second : b.2.Static) (h : entryCode config depth a ++ r = entryCode config depth b ++ s) :
    (a.1, a.2.normal a.1) = (b.1, b.2.normal b.1) ∧ r = s := by
  obtain ⟨name, given⟩ := a
  obtain ⟨name', given'⟩ := b
  simp only [entryCode, List.append_assoc, List.cons_append] at h
  obtain ⟨rfl, later⟩ := key_append_inj h
  obtain ⟨same, after⟩ := value_append_inj first second (List.tail_eq_of_cons_eq later)
  exact ⟨by rw [same], after⟩

/-- The object for attributes, from the entries for each. -/
theorem toList_object (attributes : Attributes) :
    (object (Id.run (entries Hooks.none config depth attributes))).toList =
      if attributes = [] then "null".toList
      else
        '\x7b' :: ([',', ' '].intercalate (attributes.map (entryCode config depth)) ++ ['\x7d']) := by
  rw [← entries_eq]
  cases attributes with
  | nil => rfl
  | cons entry rest =>
    rw [object, if_neg (by simp [entries]), if_neg (by simp)]
    simp [String.toList_intercalate]

theorem object_append_inj {a b : Attributes} {r s : List Char}
    (first : ∀ entry ∈ a, entry.2.Static) (second : ∀ entry ∈ b, entry.2.Static)
    (h : (object (Id.run (entries Hooks.none config depth a))).toList ++ r =
      (object (Id.run (entries Hooks.none config depth b))).toList ++ s) :
    (a.map fun entry => (entry.1, entry.2.normal entry.1)) =
      (b.map fun entry => (entry.1, entry.2.normal entry.1)) ∧ r = s := by
  rw [toList_object, toList_object] at h
  split at h <;> split at h
  · next none none' =>
    rw [none, none']
    exact ⟨rfl, List.append_cancel_left h⟩
  · cases List.head_eq_of_cons_eq h
  · cases List.head_eq_of_cons_eq h
  · next some some' =>
    simp only [List.cons_append, List.append_assoc, List.nil_append] at h
    exact Text.intercalate_append_inj (by decide) some some'
      (fun x mem y mem' r s => entry_append_inj (first x mem) (second y mem'))
      (List.tail_eq_of_cons_eq h)

/-! ## Children -/

/-- The code for a node at a depth, without hooks. -/
def code (config : Config) (depth : Nat) (given : Node) : List Char :=
  (Id.run (node Hooks.none config depth given)).toList

/-- Whether an argument, if it is the only one, stays on the line of its tag. -/
def argumentFits : Node → Bool
  | .text [part] => segmentFits part
  | argument => nodeFits argument

theorem items_eq (children : List Node) :
    Id.run (items Hooks.none config depth children) =
      (children.flatMap Node.arguments).map fun argument =>
        (Id.run (node Hooks.none config (depth + 1) argument), argumentFits argument) := by
  induction children with
  | nil => rfl
  | cons child rest ih =>
    rw [List.flatMap_cons, List.map_append, ← ih]
    cases child with
    | tag | embedded => simp [items, Node.arguments, argumentFits]
    | text segments => simp [items, Node.arguments, argumentFits, node, hookedSegment, Hooks.none]

/-- The arguments for children, as they are laid out: none, one on the line of the
tag, or each on a line of its own. -/
inductive LaidOut (config : Config) (depth : Nat) : List Node → List Char → Prop
  | none : LaidOut config depth [] []
  | line (argument : Node) :
      LaidOut config depth [argument] (',' :: ' ' :: code config (depth + 1) argument)
  | block {arguments : List Node} (some : arguments ≠ []) :
      LaidOut config depth arguments
        (',' :: '\n' :: ([',', '\n'].intercalate (arguments.map fun argument =>
          (indentation config (depth + 1)).toList ++ code config (depth + 1) argument) ++
            '\n' :: (indentation config depth).toList))

theorem laidOut_items (children : List Node) :
    LaidOut config depth (children.flatMap Node.arguments)
      (arguments config depth (Id.run (items Hooks.none config depth children))).toList := by
  rw [items_eq]
  generalize children.flatMap Node.arguments = given
  have block (given : List Node) (some : given ≠ []) : LaidOut config depth given
      (",\n" ++ ",\n".intercalate ((given.map fun argument =>
        (Id.run (node Hooks.none config (depth + 1) argument), argumentFits argument)).map
          fun item => indentation config (depth + 1) ++ item.1) ++ "\n" ++
            indentation config depth).toList := by
    simp only [String.toList_append, String.toList_intercalate, List.map_map, Function.comp_def,
      List.append_assoc]
    exact .block some
  match given with
  | [] => exact .none
  | [argument] =>
    cases fits : argumentFits argument with
    | true =>
      rw [List.map_singleton, fits, arguments, String.toList_append]
      exact .line argument
    | false =>
      have lines := block [argument] (List.cons_ne_nil _ _)
      rw [List.map_singleton, fits] at lines ⊢
      exact lines
  | first :: second :: rest =>
    rw [arguments]
    · exact block (first :: second :: rest) (List.cons_ne_nil _ _)
    all_goals simp

/-- Arguments that end by themselves, and the end of the call. -/
theorem LaidOut.append_inj {β : Type} {tell : Node → β} {first second : List Node}
    {a b r s : List Char} (laid : LaidOut config depth first a)
    (laid' : LaidOut config depth second b)
    (each : ∀ x ∈ first, ∀ y ∈ second, ∀ r s,
      code config (depth + 1) x ++ r = code config (depth + 1) y ++ s → tell x = tell y ∧ r = s)
    (h : a ++ ')' :: r = b ++ ')' :: s) : first.map tell = second.map tell ∧ r = s := by
  cases laid with
  | none =>
    cases laid' with
    | none => exact ⟨rfl, List.tail_eq_of_cons_eq h⟩
    | line | block => cases List.head_eq_of_cons_eq h
  | line x =>
    cases laid' with
    | none => cases List.head_eq_of_cons_eq h
    | line y =>
      simp only [List.cons_append, List.cons.injEq, true_and] at h
      obtain ⟨same, later⟩ := each x (by simp) y (by simp) _ _ h
      exact ⟨by rw [List.map_singleton, same, List.map_singleton], List.tail_eq_of_cons_eq later⟩
    | block => cases List.head_eq_of_cons_eq (List.tail_eq_of_cons_eq h)
  | block some =>
    cases laid' with
    | none => cases List.head_eq_of_cons_eq h
    | line => cases List.head_eq_of_cons_eq (List.tail_eq_of_cons_eq h)
    | block some' =>
      simp only [List.cons_append, List.append_assoc, List.cons.injEq, true_and] at h
      obtain ⟨same, later⟩ := Text.intercalate_append_inj (by decide) some some'
        (fun x mem y mem' r s h => by
          simp only [List.append_assoc] at h
          exact each x mem y mem' r s (List.append_cancel_left h)) h
      exact ⟨same, List.tail_eq_of_cons_eq (List.append_cancel_left later)⟩

/-! ## Tags and texts -/

theorem code_tag (kind : TagKind) (name : String) (attributes : Attributes) (children : List Node)
    (selfClosing : Bool) (rest : List Char) :
    code config depth (.tag kind name attributes children selfClosing) ++ rest =
      (factory config kind).toList ++ '(' :: ((tagName kind name).toList ++ ',' :: ' ' ::
        ((object (Id.run (entries Hooks.none config depth attributes))).toList ++
          ((arguments config depth (Id.run (items Hooks.none config depth children))).toList ++
            ')' :: rest))) := by
  simp only [code, node]
  change (factory config kind ++ "(" ++ tagName kind name ++ ", " ++
    object (Id.run (entries Hooks.none config depth attributes)) ++
      arguments config depth (Id.run (items Hooks.none config depth children)) ++ ")").toList ++
        rest = _
  simp only [String.toList_append, List.append_assoc]
  rfl

theorem code_literal (text : String) (rest : List Char) :
    code config depth (.text [.literal text]) ++ rest =
      match config.textFactory? with
      | some factory => factory.toList ++ '(' :: (Text.quoted text.toList ++ ')' :: rest)
      | none => Text.quoted text.toList ++ rest := by
  change (segment config (.literal text)).toList ++ rest = _
  cases wrapped : config.textFactory? with
  | some factory =>
    have same : segment config (.literal text) = factory ++ "(" ++ Text.quote text ++ ")" := by
      rw [segment, wrapped]
      rfl
    simp [same, Text.quote]
  | none => rw [segment, wrapped, Text.quote, String.toList_ofList]

theorem literal_append_inj {a b : String} {r s : List Char}
    (h : code config depth (.text [.literal a]) ++ r =
      code config depth (.text [.literal b]) ++ s) : a = b ∧ r = s := by
  rw [code_literal, code_literal] at h
  split at h
  · have inner := List.tail_eq_of_cons_eq (List.append_cancel_left h)
    obtain ⟨same, later⟩ := Text.quoted_append_inj inner
    exact ⟨String.ext same, List.tail_eq_of_cons_eq later⟩
  · obtain ⟨same, later⟩ := Text.quoted_append_inj h
    exact ⟨String.ext same, later⟩

/-- The name of a tag tells its kind as well: that of an element is quoted. -/
theorem tagName_append_inj {kind kind' : TagKind} {a b : String} {r s : List Char}
    (reference : kind = .component → Name.isDotted a = true)
    (reference' : kind' = .component → Name.isDotted b = true)
    (h : (tagName kind a).toList ++ ',' :: r = (tagName kind' b).toList ++ ',' :: s) :
    kind = kind' ∧ a = b ∧ r = s := by
  cases kind <;> cases kind'
  · simp only [tagName, Text.quote, String.toList_ofList] at h
    obtain ⟨same, later⟩ := Text.quoted_append_inj h
    exact ⟨rfl, String.ext same, List.tail_eq_of_cons_eq later⟩
  · simp only [tagName, Text.quote, String.toList_ofList, Text.quoted_append] at h
    exact absurd h.symm ((Name.starts_of_isDotted (reference' rfl)).1.append _).ne_quote
  · simp only [tagName, Text.quote, String.toList_ofList, Text.quoted_append] at h
    exact absurd h ((Name.starts_of_isDotted (reference rfl)).1.append _).ne_quote
  · exact ⟨rfl, Name.isDotted_append_inj (reference rfl) (reference' rfl) (by decide +kernel) h⟩

section

variable (dotted : config.Dotted)

include dotted

theorem isDotted_factory (kind : TagKind) : Name.isDotted (factory config kind) = true := by
  cases kind with
  | element => exact dotted.element
  | component => exact dotted.component

/-- A literal in the function for texts has no second argument, and a bare one is
no call. -/
theorem literal_append_ne {text name : String} {kind : TagKind} {attributes : Attributes}
    {children : List Node} {selfClosing : Bool} {r s : List Char}
    (reference : kind = .component → Name.isDotted name = true) :
    code config depth (.text [.literal text]) ++ r ≠
      code config depth (.tag kind name attributes children selfClosing) ++ s := by
  intro h
  rw [code_literal, code_tag] at h
  split at h
  · next factory wrapped =>
    obtain ⟨-, inner⟩ := Name.isDotted_append_inj (dotted.text factory wrapped)
      (isDotted_factory dotted kind) (by decide +kernel) h
    cases kind with
    | element =>
      rw [tagName, Text.quote, String.toList_ofList] at inner
      cases List.head_eq_of_cons_eq (Text.quoted_append_inj inner).2
    | component =>
      rw [tagName, Text.quoted_append] at inner
      exact ((Name.starts_of_isDotted (reference rfl)).1.append _).ne_quote inner.symm
  · rw [Text.quoted_append] at h
    exact ((Name.starts_of_isDotted (isDotted_factory dotted kind)).1.append _).ne_quote h.symm

/-- An argument tells what it is, if the tags among the children do. -/
theorem argument_append_inj {children children' : List Node}
    (inside : ∀ child ∈ children, child.Static) (inside' : ∀ child ∈ children', child.Static)
    (tags : ∀ x ∈ children, ∀ y ∈ children', x.name?.isSome → y.name?.isSome → ∀ r s,
      code config depth x ++ r = code config depth y ++ s → x.normal = y.normal ∧ r = s)
    {x y : Node} (mem : x ∈ children.flatMap Node.arguments)
    (mem' : y ∈ children'.flatMap Node.arguments) {r s : List Char}
    (h : code config depth x ++ r = code config depth y ++ s) : x.normal = y.normal ∧ r = s := by
  obtain ⟨text, rfl⟩ | ⟨among, kind, name, attributes, kids, selfClosing, rfl⟩ :=
      Node.Static.argument inside mem <;>
    obtain ⟨text', rfl⟩ | ⟨among', kind', name', attributes', kids', selfClosing', rfl⟩ :=
      Node.Static.argument inside' mem'
  · obtain ⟨rfl, later⟩ := literal_append_inj h
    exact ⟨rfl, later⟩
  · cases inside' _ among' with
    | tag reference => exact absurd h (literal_append_ne dotted reference)
  · cases inside _ among with
    | tag reference => exact absurd h.symm (literal_append_ne dotted reference)
  · exact tags _ among _ among' rfl rfl r s h

/-- The call for a tag tells the tag, by induction on its content. -/
theorem code_append_inj {first second : Node} {r s : List Char} (static : first.Static)
    (static' : second.Static) (isTag : first.name?.isSome) (isTag' : second.name?.isSome)
    (h : code config depth first ++ r = code config depth second ++ s) :
    first.normal = second.normal ∧ r = s := by
  induction static generalizing second depth r s with
  | text => contradiction
  | @tag kind name attributes children selfClosing reference values inside ih =>
    cases static' with
    | text => contradiction
    | @tag kind' name' attributes' children' selfClosing' reference' values' inside' =>
      rw [code_tag, code_tag] at h
      obtain ⟨-, named⟩ := Name.isDotted_append_inj (isDotted_factory dotted kind)
        (isDotted_factory dotted kind') (by decide +kernel) h
      obtain ⟨rfl, rfl, given⟩ := tagName_append_inj reference reference' named
      obtain ⟨sameProps, called⟩ := object_append_inj values values' (List.tail_eq_of_cons_eq given)
      obtain ⟨sameArguments, later⟩ :=
        (laidOut_items children).append_inj (laidOut_items children')
          (fun x mem y mem' r s => argument_append_inj dotted inside inside'
            (fun x among y among' isTag isTag' r s => ih x among (inside' y among') isTag isTag')
            mem mem') called
      refine ⟨?_, later⟩
      rw [Node.normal, Node.normal, Node.normals_eq, Node.normals_eq, sameProps, sameArguments]

end

end Render

/-- **The code written determines the markup.**  If two tags without code are
written alike, at the same depth and under the same settings, then they have the
same kind, name, attributes and children, as far as `Node.normal` tells: what they
may differ in is which tags close themselves, how literals are put together to
texts, and whether an attribute is a flag or the string that is written for it. -/
theorem normal_eq_of_written {config : Config} (dotted : config.Dotted) (depth : Nat)
    {first second : Node} (tags : first.name?.isSome ∧ second.name?.isSome)
    (static : first.Static ∧ second.Static)
    (same : Id.run (Render.node Hooks.none config depth first) =
      Id.run (Render.node Hooks.none config depth second)) :
    first.normal = second.normal := by
  have written : Render.code config depth first ++ [] = Render.code config depth second ++ [] := by
    rw [Render.code, Render.code, same]
  exact (Render.code_append_inj dotted static.1 static.2 tags.1 tags.2 written).1

/-- Literals that look like code, next to a component. -/
def lookalikes : Node :=
  .tag .element "p" [("hidden", .flag), ("data-a", .flag)]
    [.text [.literal "it's, "], .text [], .text [.literal "h(B, null)"],
      .tag .component "a.B" [] [] true] false

/-- The same, put together in another way. -/
def lookalikes' : Node :=
  .tag .element "p" [("hidden", .flag), ("data-a", .string "true")]
    [.text [.literal "it's, ", .literal "h(B, null)"], .tag .component "a.B" [] [] false] false

/-- Two ways to put one tree together, with a single function for all of it. -/
theorem normal_eq_of_written_lookalikes :
    Id.run (Render.node Hooks.none { Config.standard with text := some "h" } 1 lookalikes) =
        "h('p', \x7bhidden: true, 'data-a': 'true'\x7d,\n\t\th('it\\'s, '),\n" ++
          "\t\th('h(B, null)'),\n\t\th(a.B, null)\n\t)" ∧
      lookalikes.normal = lookalikes'.normal := by
  have component : Name.isDotted "a.B" = true := by decide +kernel
  have static : lookalikes.Static ∧ lookalikes'.Static := by
    refine ⟨.tag (by simp) (by simp [AttrValue.Static]) ?_,
      .tag (by simp) (by simp [AttrValue.Static]) ?_⟩
    · simp only [List.forall_mem_cons]
      exact ⟨.text (by simp), .text (by simp), .text (by simp),
        .tag (fun _ => component) (by simp) (by simp), by simp⟩
    · simp only [List.forall_mem_cons]
      exact ⟨.text (by simp), .tag (fun _ => component) (by simp) (by simp), by simp⟩
  have dotted : Config.Dotted { Config.standard with text := some "h" } :=
    ⟨by decide +kernel, by decide +kernel, fun factory same => by cases same; decide +kernel⟩
  exact ⟨by decide +kernel,
    normal_eq_of_written dotted 1 ⟨rfl, rfl⟩ static (by decide +kernel)⟩

end InlineMarkup
