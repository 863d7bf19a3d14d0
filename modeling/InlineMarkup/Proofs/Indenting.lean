import InlineMarkup.Proofs.Calls
import InlineMarkup.Proofs.Trees
import InlineMarkup.Render.Limits

/-!
# InlineMarkup.Proofs.Indenting

What is written for a node at a greater depth is what is written at a smaller one,
with more indentation behind every line feed.  This is so where line feeds come from
the layout alone: the settings have none (`Config.OneLine`), nor has any code in the
tree (`Node.OneLine`).  Strings may hold them, since they are written with a backslash.

* `Text.deepen` puts indentation behind every line feed; text without line feeds
  (`Text.OneLine`) is left as it is;
* `Render.arguments_deepen` and `Render.object_deepen`: if the parts of a call are
  deepened, then so is the call;
* `Render.code_deepen`: by induction on the tree, so is every node;
* `Render.Limits.admitsNode_of_deeper`: what can be written at a depth can be written at
  any smaller one.
-/

namespace InlineMarkup

/-! ## Indented text -/

namespace Text

/-- Text on one line. -/
def OneLine (text : List Char) : Prop := '\n' ∉ text

instance (text : List Char) : Decidable (OneLine text) := inferInstanceAs (Decidable ('\n' ∉ text))

/-- A text with `pad` behind every line feed. -/
def deepen (pad text : List Char) : List Char :=
  text.flatMap fun c => if c = '\n' then c :: pad else [c]

variable {pad : List Char}

@[simp] theorem deepen_nil : deepen pad [] = [] := rfl

@[simp] theorem deepen_append (a b : List Char) :
    deepen pad (a ++ b) = deepen pad a ++ deepen pad b := List.flatMap_append

@[simp] theorem deepen_feed (text : List Char) :
    deepen pad ('\n' :: text) = '\n' :: (pad ++ deepen pad text) := by
  simp [deepen]

theorem deepen_cons {c : Char} (other : c ≠ '\n') (text : List Char) :
    deepen pad (c :: text) = c :: deepen pad text := by
  simp [deepen, other]

theorem OneLine.deepen_eq {text : List Char} (line : OneLine text) : deepen pad text = text := by
  induction text with
  | nil => rfl
  | cons c text ih =>
    obtain ⟨other, rest⟩ := not_or.1 (mt List.mem_cons.2 line)
    rw [deepen_cons (Ne.symm other), ih rest]

theorem deepen_intercalate (separator : List Char) (parts : List (List Char)) :
    deepen pad (separator.intercalate parts) =
      (deepen pad separator).intercalate (parts.map (deepen pad)) := by
  induction parts with
  | nil => rfl
  | cons part parts ih =>
    cases parts with
    | nil => simp only [List.intercalate_singleton, List.map_cons, List.map_nil]
    | cons next parts =>
      simp only [List.intercalate_cons_cons, List.map_cons, deepen_append] at ih ⊢
      rw [ih]

theorem deepen_flatten (parts : List (List Char)) :
    deepen pad parts.flatten = (parts.map (deepen pad)).flatten := by
  induction parts with
  | nil => rfl
  | cons part parts ih => rw [List.flatten_cons, deepen_append, ih, List.map_cons, List.flatten_cons]

/-- Indentation behind every separator is as much as indentation before every part. -/
theorem append_intercalate (separator : List Char) {parts : List (List Char)} (some : parts ≠ []) :
    pad ++ (separator ++ pad).intercalate parts = separator.intercalate (parts.map (pad ++ ·)) := by
  induction parts with
  | nil => contradiction
  | cons part parts ih =>
    cases parts with
    | nil => simp only [List.intercalate_singleton, List.map_cons, List.map_nil]
    | cons next parts =>
      simp only [List.intercalate_cons_cons, List.map_cons, List.append_assoc] at ih ⊢
      rw [ih (List.cons_ne_nil _ _)]

/-- Indentation on one line adds no lines. -/
theorem count_deepen (line : OneLine pad) (text : List Char) :
    (deepen pad text).count '\n' = text.count '\n' := by
  induction text with
  | nil => rfl
  | cons c text ih =>
    by_cases feed : c = '\n'
    · subst feed
      rw [deepen_feed, List.count_cons_self, List.count_append, List.count_eq_zero_of_not_mem line,
        ih, List.count_cons_self, Nat.zero_add]
    · rw [deepen_cons feed, List.count_cons_of_ne feed, ih, List.count_cons_of_ne feed]

theorem OneLine.append {a b : List Char} (first : OneLine a) (second : OneLine b) :
    OneLine (a ++ b) := by
  simpa [OneLine] using And.intro first second

theorem OneLine.replicate {text : List Char} (line : OneLine text) (n : Nat) :
    OneLine (List.replicate n text).flatten := by
  intro mem
  obtain ⟨part, copy, inside⟩ := List.mem_flatten.1 mem
  rw [(List.mem_replicate.1 copy).2] at inside
  exact line inside

theorem OneLine.trim {text : List Char} (line : OneLine text) : OneLine (trim text) := by
  intro mem
  have kept := (List.dropWhile_sublist _).subset (List.mem_reverse.1 mem)
  exact line ((List.dropWhile_sublist _).subset (List.mem_reverse.1 kept))

/-- A string is written on one line, whatever is in it. -/
theorem oneLine_quoted (text : List Char) : OneLine (quoted text) := by
  have escaped (c : Char) : '\n' ∉ escape c := by
    unfold escape
    split
    · decide
    split
    · decide
    split
    · decide
    split
    · decide
    · next feed _ => simpa using Ne.symm feed
  simp only [OneLine, quoted, List.cons_append, List.mem_cons, List.mem_append, List.mem_flatMap,
    List.not_mem_nil, or_false, not_or, not_exists, not_and]
  exact ⟨by decide, fun c _ => escaped c, by decide⟩

theorem oneLine_quote (text : String) : OneLine (quote text).toList := by
  rw [quote, String.toList_ofList]
  exact oneLine_quoted _

end Text

open Text (OneLine deepen)

/-! ## What has no line feeds of its own -/

/-- A segment whose code is on one line. -/
def Segment.OneLine : Segment → Prop
  | .literal _ => True
  | .expression code => Text.OneLine code.toList

/-- A piece on one line, unless it is markup. -/
def Piece.OneLine : Piece → Prop
  | .code text => Text.OneLine text.toList
  | .markup _ => True

/-- A value whose code is on one line. -/
def AttrValue.OneLine : AttrValue → Prop
  | .string _ | .flag => True
  | .expression code => Text.OneLine code.toList
  | .nested _ pieces => ∀ piece ∈ pieces, piece.OneLine

/-- A node whose own code is on one line: the reference to a component, the code of its
attributes, the code in a text and the pieces of code around markup. -/
def Node.OneLine : Node → Prop
  | .tag kind name attributes _ _ =>
    (kind = .component → Text.OneLine name.toList) ∧ ∀ entry ∈ attributes, entry.2.OneLine
  | .text segments => ∀ part ∈ segments, part.OneLine
  | .embedded _ pieces => ∀ piece ∈ pieces, piece.OneLine

instance : DecidablePred Segment.OneLine
  | .literal _ => isTrue trivial
  | .expression code => inferInstanceAs (Decidable (Text.OneLine code.toList))

instance : DecidablePred Piece.OneLine
  | .code text => inferInstanceAs (Decidable (Text.OneLine text.toList))
  | .markup _ => isTrue trivial

instance : DecidablePred AttrValue.OneLine
  | .string _ | .flag => isTrue trivial
  | .expression code => inferInstanceAs (Decidable (Text.OneLine code.toList))
  | .nested _ pieces => inferInstanceAs (Decidable (∀ piece ∈ pieces, piece.OneLine))

instance : DecidablePred Node.OneLine
  | .tag kind name attributes _ _ => inferInstanceAs (Decidable ((kind = .component →
      Text.OneLine name.toList) ∧ ∀ entry ∈ attributes, entry.2.OneLine))
  | .text segments => inferInstanceAs (Decidable (∀ part ∈ segments, part.OneLine))
  | .embedded _ pieces => inferInstanceAs (Decidable (∀ piece ∈ pieces, piece.OneLine))

/-- Settings on one line each. -/
structure Config.OneLine (config : Config) : Prop where
  element : Text.OneLine config.element.toList
  component : Text.OneLine config.component.toList
  text : ∀ factory, config.text = some factory → Text.OneLine factory.toList
  indent : Text.OneLine config.indent.toList

namespace Node

variable {P : Node → Prop}

theorem All.root {tree : Node} (all : tree.All P) : P tree := all tree .root

theorem All.child {kind : TagKind} {name : String} {attributes : Attributes} {children : List Node}
    {selfClosing : Bool} (all : (Node.tag kind name attributes children selfClosing).All P) :
    ∀ child ∈ children, child.All P :=
  fun _ mem node part => all node (.child mem part)

theorem All.nested {kind : TagKind} {name : String} {attributes : Attributes}
    {children : List Node} {selfClosing : Bool}
    (all : (Node.tag kind name attributes children selfClosing).All P) {key source : String}
    {pieces : List Piece} (mem : (key, .nested source pieces) ∈ attributes) :
    ∀ tree, .markup tree ∈ pieces → tree.All P :=
  fun _ piece node part => all node (.nested mem piece part)

theorem All.inside {source : String} {pieces : List Piece}
    (all : (Node.embedded source pieces).All P) : ∀ tree, .markup tree ∈ pieces → tree.All P :=
  fun _ piece node part => all node (.embedded piece part)

end Node

namespace Render

variable {config : Config} {depth more : Nat}

/-! ## Indentation -/

/-- The indentation of so many levels. -/
def levels (config : Config) (depth : Nat) : List Char :=
  (List.replicate depth config.indent.toList).flatten

theorem toList_indentation (config : Config) (depth : Nat) :
    (indentation config depth).toList = levels config depth := by
  rw [indentation_eq_join, String.toList_join, List.flatMap_def, List.map_replicate, levels]

theorem oneLine_levels (line : config.OneLine) (depth : Nat) : OneLine (levels config depth) :=
  line.indent.replicate depth

theorem levels_append (config : Config) (depth more : Nat) :
    levels config more ++ levels config depth = levels config (depth + more) := by
  rw [levels, levels, ← List.flatten_append, List.replicate_append_replicate, Nat.add_comm, levels]

/-! ## Code on one line -/

theorem oneLine_key (name : String) : OneLine (key name).toList := by
  unfold key
  split
  · next identifier =>
    intro feed
    have part := (Name.starts_of_isIdentifier identifier).2 _ feed
    revert part
    decide +kernel
  · exact Text.oneLine_quote name

theorem oneLine_factory (line : config.OneLine) (kind : TagKind) :
    OneLine (factory config kind).toList := by
  cases kind with
  | element => exact line.element
  | component => exact line.component

theorem oneLine_tagName {kind : TagKind} {name : String}
    (reference : kind = .component → OneLine name.toList) : OneLine (tagName kind name).toList := by
  cases kind with
  | element => exact Text.oneLine_quote name
  | component => exact reference rfl

theorem oneLine_segment (line : config.OneLine) {part : Segment} (own : part.OneLine) :
    OneLine (segment config part).toList := by
  cases wrapped : config.textFactory? with
  | none =>
    cases part with
    | literal text =>
      rw [segment, wrapped]
      exact Text.oneLine_quote text
    | expression code =>
      rw [segment, wrapped]
      exact own
  | some factory =>
    have given : OneLine factory.toList := line.text factory (Option.filter_eq_some_iff.1 wrapped).1
    cases part with
    | literal text =>
      have same : segment config (.literal text) = factory ++ "(" ++ Text.quote text ++ ")" := by
        rw [segment, wrapped]
        rfl
      rw [same]
      simp only [String.toList_append]
      exact ((given.append (by decide)).append (Text.oneLine_quote text)).append (by decide)
    | expression code =>
      have same : segment config (.expression code) = factory ++ "(" ++ code ++ ")" := by
        rw [segment, wrapped]
        rfl
      rw [same]
      simp only [String.toList_append]
      exact ((given.append (by decide)).append own).append (by decide)

/-! ## Parts of a call -/

/-- The code for a piece, without hooks. -/
def pieceCode (config : Config) (depth : Nat) : Piece → List Char
  | .code text => text.toList
  | .markup root => code config depth root

theorem pieces_eq (parts : List Piece) :
    (String.join (Id.run (pieces Hooks.none config depth parts))).toList =
      (parts.map (pieceCode config depth)).flatten := by
  rw [String.toList_join, List.flatMap_def]
  congr 1
  induction parts with
  | nil => rfl
  | cons piece rest ih =>
    rw [List.map_cons, ← ih]
    cases piece with
    | code text => simp [pieces, pieceCode]
    | markup root => simp [pieces, pieceCode, code]

theorem code_text (segments : List Segment) :
    code config depth (.text segments) =
      [',', ' '].intercalate (segments.map fun part => (segment config part).toList) := by
  simp [code, node, hookedSegment, Hooks.none, String.toList_intercalate, Function.comp_def]

theorem code_embedded (source : String) (parts : List Piece) :
    code config depth (.embedded source parts) = (parts.map (pieceCode config depth)).flatten := by
  rw [← pieces_eq]
  simp [code, node, Hooks.none]

theorem valueCode_nested (name source : String) (parts : List Piece) :
    valueCode config depth name (.nested source parts) =
      (parts.map (pieceCode config (depth + 1))).flatten := by
  rw [← pieces_eq]
  simp [valueCode, value, Hooks.none]

/-- Pieces are deepened if the markup among them is. -/
theorem pieces_deepen {parts : List Piece} (line : ∀ piece ∈ parts, piece.OneLine)
    (trees : ∀ root, .markup root ∈ parts →
      code config (depth + more) root = deepen (levels config more) (code config depth root)) :
    (parts.map (pieceCode config (depth + more))).flatten =
      deepen (levels config more) (parts.map (pieceCode config depth)).flatten := by
  rw [Text.deepen_flatten, List.map_map]
  congr 1
  refine List.map_congr_left fun piece mem => ?_
  cases piece with
  | code text => exact (line _ mem).deepen_eq.symm
  | markup root => exact trees root mem

theorem valueCode_deepen (depth more : Nat) (name : String) {given : AttrValue} (line : given.OneLine)
    (trees : ∀ source parts, given = .nested source parts → ∀ root, .markup root ∈ parts →
      ∀ depth, code config (depth + more) root =
        deepen (levels config more) (code config depth root)) :
    valueCode config (depth + more) name given =
      deepen (levels config more) (valueCode config depth name given) := by
  cases given with
  | string text => exact (Text.oneLine_quote text).deepen_eq.symm
  | flag =>
    have word : OneLine (valueCode config depth name .flag) := by
      simp only [valueCode, value]
      split
      · exact (by decide : OneLine "true".toList)
      · exact (by decide : OneLine "'true'".toList)
    exact word.deepen_eq.symm
  | expression code =>
    have trimmed : OneLine (valueCode config depth name (.expression code)) := by
      change OneLine (String.ofList (Text.trim code.toList)).toList
      rw [String.toList_ofList]
      exact Text.OneLine.trim line
    exact trimmed.deepen_eq.symm
  | nested source parts =>
    rw [valueCode_nested, valueCode_nested, Nat.add_right_comm]
    exact pieces_deepen line fun root mem => trees source parts rfl root mem _

/-- The object for attributes is deepened if their values are. -/
theorem object_deepen {attributes : Attributes}
    (values : ∀ entry ∈ attributes, valueCode config (depth + more) entry.1 entry.2 =
      deepen (levels config more) (valueCode config depth entry.1 entry.2)) :
    (object (Id.run (entries Hooks.none config (depth + more) attributes))).toList =
      deepen (levels config more)
        (object (Id.run (entries Hooks.none config depth attributes))).toList := by
  rw [toList_object, toList_object]
  split
  · exact (Text.OneLine.deepen_eq (by decide)).symm
  · have each : attributes.map (entryCode config (depth + more)) =
        (attributes.map (entryCode config depth)).map (deepen (levels config more)) := by
      rw [List.map_map]
      refine List.map_congr_left fun entry mem => ?_
      rw [Function.comp_apply, entryCode, entryCode, Text.deepen_append,
        (oneLine_key entry.1).deepen_eq, Text.deepen_cons (by decide), Text.deepen_cons (by decide),
        values entry mem]
    rw [Text.deepen_cons (by decide), Text.deepen_append, Text.deepen_intercalate, each,
      Text.OneLine.deepen_eq (by decide), Text.OneLine.deepen_eq (by decide)]

/-- Whether arguments stay on the line of their tag: a single one that fits does. -/
def onLine : List Node → Bool
  | [] => true
  | [argument] => argumentFits argument
  | _ => false

/-- The layout of arguments is settled by what they are, whatever the depth. -/
theorem toList_arguments (given : List Node) :
    (arguments config depth (given.map fun argument =>
      (Id.run (node Hooks.none config (depth + 1) argument), argumentFits argument))).toList =
      if onLine given then given.flatMap fun argument =>
        ',' :: ' ' :: code config (depth + 1) argument
      else
        ',' :: '\n' :: ([',', '\n'].intercalate (given.map fun argument =>
          levels config (depth + 1) ++ code config (depth + 1) argument) ++
            '\n' :: levels config depth) := by
  have block (given : List Node) :
      (",\n" ++ ",\n".intercalate ((given.map fun argument =>
        (Id.run (node Hooks.none config (depth + 1) argument), argumentFits argument)).map
          fun item => indentation config (depth + 1) ++ item.1) ++ "\n" ++
            indentation config depth).toList =
        ',' :: '\n' :: ([',', '\n'].intercalate (given.map fun argument =>
          levels config (depth + 1) ++ code config (depth + 1) argument) ++
            '\n' :: levels config depth) := by
    simp only [String.toList_append, String.toList_intercalate, List.map_map, Function.comp_def,
      List.append_assoc, toList_indentation]
    rfl
  match given with
  | [] => rfl
  | [argument] =>
    cases fits : argumentFits argument with
    | true =>
      rw [List.map_singleton, fits, arguments, onLine, fits, if_pos rfl, String.toList_append,
        List.flatMap_singleton]
      rfl
    | false =>
      rw [onLine, fits, if_neg Bool.false_ne_true, ← block, List.map_singleton, fits]
      rfl
  | first :: second :: rest =>
    rw [onLine, if_neg Bool.false_ne_true, ← block, arguments]
    all_goals simp

/-- Arguments are deepened if each of them is. -/
theorem arguments_deepen {given : List Node}
    (each : ∀ argument ∈ given, code config (depth + 1 + more) argument =
      deepen (levels config more) (code config (depth + 1) argument)) (line : config.OneLine) :
    (arguments config (depth + more) (given.map fun argument =>
      (Id.run (node Hooks.none config (depth + more + 1) argument), argumentFits argument))).toList =
      deepen (levels config more) (arguments config depth (given.map fun argument =>
        (Id.run (node Hooks.none config (depth + 1) argument), argumentFits argument))).toList := by
  rw [toList_arguments, toList_arguments, Nat.add_right_comm]
  split
  · next fits =>
    match given with
    | [] => rfl
    | [argument] =>
      rw [List.flatMap_singleton, List.flatMap_singleton, each argument (by simp),
        Text.deepen_cons (by decide), Text.deepen_cons (by decide)]
    | _ :: _ :: _ => contradiction
  · next block =>
    have some : given ≠ [] := by rintro rfl; exact block rfl
    have parts : (given.map fun argument =>
        levels config (depth + 1 + more) ++ code config (depth + 1 + more) argument) =
        ((given.map fun argument => levels config (depth + 1) ++ code config (depth + 1) argument).map
          (deepen (levels config more))).map (levels config more ++ ·) := by
      rw [List.map_map, List.map_map]
      refine List.map_congr_left fun argument mem => ?_
      rw [Function.comp_apply, Function.comp_apply, Text.deepen_append,
        (oneLine_levels line _).deepen_eq, each argument mem, ← List.append_assoc, levels_append]
    rw [Text.deepen_cons (by decide), Text.deepen_feed, Text.deepen_append, Text.deepen_feed,
      Text.deepen_intercalate, Text.deepen_cons (by decide), Text.deepen_feed, Text.deepen_nil,
      (oneLine_levels line _).deepen_eq, levels_append, List.append_nil, parts,
      ← Text.append_intercalate [',', '\n'] (by simpa using some), List.append_assoc]
    rfl

/-! ## Nodes -/

theorem code_tag_nil (kind : TagKind) (name : String) (attributes : Attributes)
    (children : List Node) (selfClosing : Bool) :
    code config depth (.tag kind name attributes children selfClosing) =
      (factory config kind).toList ++ '(' :: ((tagName kind name).toList ++ ',' :: ' ' ::
        ((object (Id.run (entries Hooks.none config depth attributes))).toList ++
          ((arguments config depth ((children.flatMap Node.arguments).map fun argument =>
            (Id.run (node Hooks.none config (depth + 1) argument),
              argumentFits argument))).toList ++ [')']))) := by
  rw [← items_eq, ← code_tag kind name attributes children selfClosing [], List.append_nil]

/-- The arguments that children give are deepened if the children are. -/
theorem argument_deepen (line : config.OneLine) {children : List Node}
    (own : ∀ child ∈ children, child.OneLine)
    (trees : ∀ child ∈ children, code config (depth + more) child =
      deepen (levels config more) (code config depth child)) :
    ∀ argument ∈ children.flatMap Node.arguments, code config (depth + more) argument =
      deepen (levels config more) (code config depth argument) := by
  intro argument mem
  obtain ⟨child, among, mem⟩ := List.mem_flatMap.1 mem
  cases child with
  | tag | embedded =>
    obtain rfl := List.mem_singleton.1 mem
    exact trees _ among
  | text segments =>
    obtain ⟨part, inside, rfl⟩ := List.mem_map.1 mem
    rw [code_text, code_text, List.map_singleton, List.intercalate_singleton,
      (oneLine_segment line (own _ among part inside)).deepen_eq]

/-- The code for a tree, deeper by some levels. -/
theorem code_deepen (line : config.OneLine) (tree : Node) (own : tree.All Node.OneLine)
    (depth more : Nat) :
    code config (depth + more) tree = deepen (levels config more) (code config depth tree) := by
  induction tree using Node.induct generalizing depth with
  | tag kind name attributes children selfClosing inside nested =>
    obtain ⟨reference, values⟩ := own.root
    have object := object_deepen fun entry mem =>
      valueCode_deepen depth more entry.1 (values entry mem)
        fun source parts same root piece depth => by
          have here : (entry.1, AttrValue.nested source parts) ∈ attributes := same ▸ mem
          exact nested _ _ _ here root piece (own.nested here root piece) depth
    have arguments := arguments_deepen
      (argument_deepen line (fun child mem => (own.child child mem).root)
        fun child mem => inside child mem (own.child child mem) (depth + 1)) line
    rw [code_tag_nil, code_tag_nil, object, arguments]
    simp only [Text.deepen_append, (oneLine_factory line kind).deepen_eq,
      (oneLine_tagName reference).deepen_eq, Text.deepen_cons (by decide : '(' ≠ '\n'),
      Text.deepen_cons (by decide : ',' ≠ '\n'), Text.deepen_cons (by decide : ' ' ≠ '\n'),
      Text.deepen_cons (by decide : ')' ≠ '\n'), Text.deepen_nil]
  | text segments =>
    rw [code_text, code_text, Text.deepen_intercalate, Text.OneLine.deepen_eq (by decide),
      List.map_map]
    congr 1
    exact List.map_congr_left fun part mem =>
      (oneLine_segment line (own.root part mem)).deepen_eq.symm
  | embedded source pieces trees =>
    rw [code_embedded, code_embedded]
    exact pieces_deepen own.root fun root piece => trees root piece (own.inside root piece) depth

/-! ## Depths that can be written at -/

namespace Limits

theorem admitsBelow_of_deeper (deeper : admitsBelow (depth + more) = true) :
    admitsBelow depth = true := by
  simp only [admitsBelow, decide_eq_true_eq] at deeper ⊢
  omega

theorem admitsIndentation_of_deeper (deeper : admitsIndentation config (depth + more) = true) :
    admitsIndentation config depth = true := by
  simp only [admitsIndentation, decide_eq_true_eq, Nat.mul_add] at deeper ⊢
  omega

theorem admitsLayout_of_deeper {children : List Node}
    (deeper : admitsLayout config (depth + more) children = true) :
    admitsLayout config depth children = true := by
  simp only [admitsLayout, Bool.or_eq_true, Bool.and_eq_true] at deeper ⊢
  refine deeper.imp_right fun ⟨below, indented⟩ => ⟨admitsBelow_of_deeper below, ?_⟩
  rw [Nat.add_right_comm] at indented
  exact admitsIndentation_of_deeper indented

theorem admitsPieces_iff {parts : List Piece} :
    admitsPieces config depth parts = true ↔
      ∀ root, .markup root ∈ parts → admitsNode config depth root = true := by
  induction parts with
  | nil => simp [admitsPieces]
  | cons piece rest ih =>
    cases piece with
    | code text => simp [admitsPieces, ih]
    | markup root => simp [admitsPieces, ih]

theorem admitsEntries_iff {attributes : Attributes} :
    admitsEntries config depth attributes = true ↔
      ∀ key source parts, (key, .nested source parts) ∈ attributes →
        admitsBelow depth = true ∧ admitsPieces config (depth + 1) parts = true := by
  induction attributes with
  | nil => simp [admitsEntries]
  | cons entry rest ih =>
    obtain ⟨name, given⟩ := entry
    cases given with
    | nested source parts =>
      simp only [admitsEntries, admitsValue, Bool.and_eq_true, ih, List.mem_cons, Prod.mk.injEq,
        AttrValue.nested.injEq]
      constructor
      · rintro ⟨own, others⟩ key source' parts' (⟨rfl, rfl, rfl⟩ | mem)
        · exact own
        · exact others _ _ _ mem
      · intro all
        exact ⟨all name source parts (.inl ⟨rfl, rfl, rfl⟩),
          fun key source' parts' mem => all _ _ _ (.inr mem)⟩
    | string | flag | expression => simp [admitsEntries, admitsValue, ih]

theorem admitsItems_iff {children : List Node} :
    admitsItems config depth children = true ↔
      ∀ child ∈ children, (∀ segments, child ≠ .text segments) →
        admitsBelow depth = true ∧ admitsNode config (depth + 1) child = true := by
  induction children with
  | nil => simp [admitsItems]
  | cons child rest ih =>
    cases child with
    | text segments => simp [admitsItems, ih]
    | tag | embedded => simp [admitsItems, ih]

/-- What can be written at a depth can be written at a smaller one. -/
theorem admitsNode_of_deeper {tree : Node} (deeper : admitsNode config (depth + more) tree = true) :
    admitsNode config depth tree = true := by
  induction tree using Node.induct generalizing depth with
  | tag kind name attributes children selfClosing inside nested =>
    rw [admitsNode, Bool.and_eq_true, Bool.and_eq_true, admitsEntries_iff, admitsItems_iff]
      at deeper ⊢
    obtain ⟨⟨entries, items⟩, layout⟩ := deeper
    refine ⟨⟨fun key source parts mem => ?_, fun child mem other => ?_⟩,
      admitsLayout_of_deeper layout⟩
    · obtain ⟨below, pieces⟩ := entries key source parts mem
      rw [Nat.add_right_comm, admitsPieces_iff] at pieces
      exact ⟨admitsBelow_of_deeper below, admitsPieces_iff.2 fun root piece =>
        nested _ _ _ mem root piece (pieces root piece)⟩
    · obtain ⟨below, node⟩ := items child mem other
      rw [Nat.add_right_comm] at node
      exact ⟨admitsBelow_of_deeper below, inside child mem node⟩
  | text segments => rfl
  | embedded source pieces trees =>
    rw [admitsNode, admitsPieces_iff] at deeper ⊢
    exact fun root piece => trees root piece (deeper root piece)

end Limits

end Render

/-- **Indentation depends on the depth alone.**  If the settings and the code in a tree
are on one line each, then the code for the tree at a greater depth is the code at a
smaller one with an indentation for each further level behind every line feed.  So the
tree has as many lines at any depth, and what is on one line at one depth is on one line
at all; and a depth at which it can be written leaves room for every smaller one. -/
theorem node_deeper {config : Config} (line : config.OneLine) {tree : Node}
    (own : tree.All Node.OneLine) :
    (∀ depth more, (Id.run (Render.node Hooks.none config (depth + more) tree)).toList =
      Text.deepen (List.replicate more config.indent.toList).flatten
        (Id.run (Render.node Hooks.none config depth tree)).toList) ∧
      (∀ depth other, (Id.run (Render.node Hooks.none config depth tree)).toList.count '\n' =
        (Id.run (Render.node Hooks.none config other tree)).toList.count '\n') ∧
        ∀ depth more, (Render.node? (m := Id) Hooks.none config (depth + more) tree).isSome →
          (Render.node? (m := Id) Hooks.none config depth tree).isSome := by
  refine ⟨Render.code_deepen line tree own, fun depth other => ?_, fun depth more written => ?_⟩
  · have lines (depth : Nat) : (Render.code config depth tree).count '\n' =
        (Render.code config 0 tree).count '\n' := by
      rw [← Nat.zero_add depth, Render.code_deepen line tree own,
        Text.count_deepen (Render.oneLine_levels line depth)]
    exact (lines depth).trans (lines other).symm
  · simp only [Render.node?, Option.isSome_ite] at written ⊢
    exact Render.Limits.admitsNode_of_deeper written

/-- Code in an attribute and among the children of a component, and a text of two lines. -/
def layered : Node :=
  .tag .component "List" [("header", .nested "f(<b/>)" [.code "f(",
      .markup (.tag .element "p" [] [.text [.literal "one\ntwo"]] false), .code ")"])]
    [.text [.literal "a", .expression "n"],
      .embedded "on && <b/>" [.code "on && ", .markup (.tag .element "b" [] [] true)]] false

/-- At any depth `layered` has six lines; the markup in its attribute is one level deeper
than the tag. -/
theorem node_deeper_layered :
    Id.run (Render.node Hooks.none { Config.standard with indent := "  " } 1 layered) =
        "h(List, \x7bheader: f(h('p', null,\n      'one\\ntwo'\n    ))\x7d,\n    'a',\n    n,\n" ++
          "    on && h('b', null)\n  )" ∧
      ∀ more, (Id.run (Render.node Hooks.none { Config.standard with indent := "  " } (1 + more)
        layered)).toList = Text.deepen (List.replicate more [' ', ' ']).flatten
          (Id.run (Render.node Hooks.none { Config.standard with indent := "  " } 1
            layered)).toList := by
  have line : Config.OneLine { Config.standard with indent := "  " } :=
    ⟨by decide, by decide, by rintro _ ⟨⟩, by decide⟩
  have own : layered.All Node.OneLine := by
    refine .tag (by decide) ?_ ?_
    · simp only [List.forall_mem_cons]
      refine ⟨.text (by decide), .embedded (by decide) ?_, by simp⟩
      intro tree piece
      simp only [List.mem_cons, Piece.markup.injEq, reduceCtorEq, List.not_mem_nil, false_or,
        or_false] at piece
      subst piece
      exact .tag (by decide) (by simp) (by simp)
    · intro key source pieces mem tree piece
      simp only [List.mem_singleton, Prod.mk.injEq, AttrValue.nested.injEq] at mem
      obtain ⟨-, -, rfl⟩ := mem
      simp only [List.mem_cons, Piece.markup.injEq, reduceCtorEq, List.not_mem_nil, false_or,
        or_false] at piece
      subst piece
      refine .tag (by decide) ?_ (by simp)
      exact List.forall_mem_singleton.2 (.text (by decide))
  exact ⟨by decide +kernel, (node_deeper line own).1 1⟩

end InlineMarkup
