import InlineMarkup.Proofs.Trees
import InlineMarkup.Render

/-!
# InlineMarkup.Proofs.Recording

What hooks get to see of a tree.  `Hooks.recording` makes of any hooks, in any monad, some that
take note of every call before they do their work, and `Node.calls` lists the calls that they note
down: for each tag the two calls that are about it, at the depth that is the number of tags around
it, then those for its attributes, then those for its children.

* `Render.node_recording`: these calls are made, in this order, and what is written is what the
  hooks write without taking note;
* `Node.filter_calls`: the calls about tags are those for the tags of the tree, one by one;
* `Node.mem_tags_iff`: the tags of the tree are found in its content, in its code and in the code
  of its attributes, however deep;
* `Render.inTurn_node`: what is written for them begins in the same order.
-/

namespace InlineMarkup

/-! ## Calls -/

/-- A call of a hook, with what the hook is told. -/
inductive Call where
  | node (depth : Nat) (given : Node)
  | tag (depth : Nat) (given : Tag)
  | text (part : Segment)
  | props (depth : Nat) (given : Attributes)
  | children (depth : Nat) (given : List Node)
  | embedded (depth : Nat) (given : Embedded)

/-- Whether a call is about a tag as a whole. -/
def Call.isTag : Call → Bool
  | .node _ (.tag ..) | .tag .. => true
  | .node _ (.text _) | .node _ (.embedded ..) => false
  | .text _ | .props .. | .children .. | .embedded .. => false

/-- Takes note of a call, has the part written as usual, and changes it by `edit`. -/
def Call.hook {m : Type → Type} [Monad m] (record : Call → m Unit) (call : Call)
    (edit : Id String → Id String) (usual : m String) : m String := do
  record call
  (fun text => Id.run (edit (pure text))) <$> usual

namespace Hooks

/-- Hooks that take note of every call before they do what `wrap` does. -/
def recording {m : Type → Type} [Monad m] (record : Call → m Unit) (wrap : Hooks Id) : Hooks m where
  node depth given := Call.hook record (.node depth given) (wrap.node depth given)
  tag depth given := Call.hook record (.tag depth given) (wrap.tag depth given)
  text part := Call.hook record (.text part) (wrap.text part)
  props depth given := Call.hook record (.props depth given) (wrap.props depth given)
  children depth given := Call.hook record (.children depth given) (wrap.children depth given)
  embedded depth given := Call.hook record (.embedded depth given) (wrap.embedded depth given)

/-- Hooks that leave what is written as usual in its place and may write something around it.  What
they do with texts is left open, for no tag stands in a text. -/
structure Keeps (wrap : Hooks Id) : Prop where
  node : ∀ depth given text,
    text.toList <:+: (Id.run (wrap.node depth given (pure text))).toList
  tag : ∀ depth given text,
    text.toList <:+: (Id.run (wrap.tag depth given (pure text))).toList
  props : ∀ depth given text,
    text.toList <:+: (Id.run (wrap.props depth given (pure text))).toList
  children : ∀ depth given text,
    text.toList <:+: (Id.run (wrap.children depth given (pure text))).toList
  embedded : ∀ depth given text,
    text.toList <:+: (Id.run (wrap.embedded depth given (pure text))).toList

end Hooks

/-! ## Tags where they stand -/

/-- A tag and the tags around it, innermost first. -/
structure TagAt extends Tag where
  around : List Node

namespace TagAt

/-- How many tags are around it. -/
def depth (place : TagAt) : Nat := place.around.length

/-- The calls about the tag as a whole. -/
def calls (place : TagAt) : List Call :=
  [.node place.depth place.node, .tag place.depth place.toTag]

end TagAt

mutual

/-- The tags of a tree that stands inside the tags `around`: a tag before those in it, and those in
its attributes before those in its content. -/
def Node.tags (around : List Node) : Node → List TagAt
  | .tag kind name attributes kids selfClosing =>
    let inside := .tag kind name attributes kids selfClosing :: around
    ⟨⟨kind, name, attributes, kids, selfClosing⟩, around⟩ ::
      (entryTags inside attributes ++ kidTags inside kids)
  | .text _ => []
  | .embedded _ parts => pieceTags around parts

/-- The tags in attributes. -/
def entryTags (around : List Node) : List (String × AttrValue) → List TagAt
  | [] => []
  | (_, given) :: rest => valueTags around given ++ entryTags around rest

/-- The tags in the value of an attribute. -/
def valueTags (around : List Node) : AttrValue → List TagAt
  | .string _ | .flag | .expression _ => []
  | .nested _ parts => pieceTags around parts

/-- The tags in content. -/
def kidTags (around : List Node) : List Node → List TagAt
  | [] => []
  | kid :: rest => kid.tags around ++ kidTags around rest

/-- The tags in code. -/
def pieceTags (around : List Node) : List Piece → List TagAt
  | [] => []
  | .code _ :: rest => pieceTags around rest
  | .markup root :: rest => root.tags around ++ pieceTags around rest

end

mutual

/-- The calls made for a node inside the tags `around`. -/
def Node.calls (around : List Node) : Node → List Call
  | .tag kind name attributes kids selfClosing =>
    let inside := .tag kind name attributes kids selfClosing :: around
    .node around.length (.tag kind name attributes kids selfClosing) ::
      .tag around.length ⟨kind, name, attributes, kids, selfClosing⟩ ::
        .props around.length attributes :: (entryCalls inside attributes ++
          .children around.length kids :: kidCalls inside kids)
  | .text segments => .node around.length (.text segments) :: segments.map .text
  | .embedded source parts =>
    .node around.length (.embedded source parts) :: .embedded around.length ⟨source, parts⟩ ::
      pieceCalls around parts

/-- The calls made for attributes. -/
def entryCalls (around : List Node) : List (String × AttrValue) → List Call
  | [] => []
  | (_, given) :: rest => valueCalls around given ++ entryCalls around rest

/-- The calls made for the value of an attribute. -/
def valueCalls (around : List Node) : AttrValue → List Call
  | .string _ | .flag | .expression _ => []
  | .nested source parts => .embedded around.length ⟨source, parts⟩ :: pieceCalls around parts

/-- The calls made for children.  A text among them is no node of its own. -/
def kidCalls (around : List Node) : List Node → List Call
  | [] => []
  | .text segments :: rest => segments.map .text ++ kidCalls around rest
  | kid :: rest => kid.calls around ++ kidCalls around rest

/-- The calls made for code. -/
def pieceCalls (around : List Node) : List Piece → List Call
  | [] => []
  | .code _ :: rest => pieceCalls around rest
  | .markup root :: rest => root.calls around ++ pieceCalls around rest

end

theorem filter_map_text (segments : List Segment) :
    (segments.map Call.text).filter Call.isTag = [] := by
  simp [List.filter_map, Function.comp_def, Call.isTag]

mutual

/-- The calls about tags as a whole are those for the tags of the tree, one by one. -/
theorem Node.filter_calls (around : List Node) : (given : Node) →
    (given.calls around).filter Call.isTag = (given.tags around).flatMap TagAt.calls
  | .tag kind name attributes kids selfClosing => by
    simp [Node.calls, Node.tags, List.filter_cons, Call.isTag, TagAt.calls, TagAt.depth,
      Tag.node, filter_entryCalls _ attributes, filter_kidCalls _ kids]
  | .text segments => by simp [Node.calls, Node.tags, Call.isTag, filter_map_text]
  | .embedded source parts => by
    simp [Node.calls, Node.tags, Call.isTag, filter_pieceCalls around parts]

theorem filter_entryCalls (around : List Node) : (attributes : List (String × AttrValue)) →
    (entryCalls around attributes).filter Call.isTag =
      (entryTags around attributes).flatMap TagAt.calls
  | [] => by simp [entryCalls, entryTags]
  | (name, given) :: rest => by
    simp [entryCalls, entryTags, filter_valueCalls around given, filter_entryCalls around rest]

theorem filter_valueCalls (around : List Node) : (given : AttrValue) →
    (valueCalls around given).filter Call.isTag = (valueTags around given).flatMap TagAt.calls
  | .string _ | .flag | .expression _ => by simp [valueCalls, valueTags]
  | .nested source parts => by
    simp [valueCalls, valueTags, Call.isTag, filter_pieceCalls around parts]

theorem filter_kidCalls (around : List Node) : (kids : List Node) →
    (kidCalls around kids).filter Call.isTag = (kidTags around kids).flatMap TagAt.calls
  | [] => by simp [kidCalls, kidTags]
  | .text segments :: rest => by
    simp [kidCalls, kidTags, Node.tags, filter_map_text, filter_kidCalls around rest]
  | .tag kind name attributes kids selfClosing :: rest => by
    simp [kidCalls, kidTags, filter_kidCalls around rest,
      Node.filter_calls around (.tag kind name attributes kids selfClosing)]
  | .embedded source parts :: rest => by
    simp [kidCalls, kidTags, filter_kidCalls around rest,
      Node.filter_calls around (.embedded source parts)]

theorem filter_pieceCalls (around : List Node) : (parts : List Piece) →
    (pieceCalls around parts).filter Call.isTag = (pieceTags around parts).flatMap TagAt.calls
  | [] => by simp [pieceCalls, pieceTags]
  | .code text :: rest => by simp [pieceCalls, pieceTags, filter_pieceCalls around rest]
  | .markup root :: rest => by
    simp [pieceCalls, pieceTags, Node.filter_calls around root, filter_pieceCalls around rest]

end

/-! ## Where tags stand -/

/-- A node stands in a tree, inside the tags `around` of the tree and no others, innermost
first. -/
inductive Node.StandsIn (node : Node) : List Node → Node → Prop
  | root : StandsIn node [] node
  | child {kind : TagKind} {name : String} {attributes : Attributes} {children : List Node}
      {selfClosing : Bool} {around : List Node} {tree : Node} (mem : tree ∈ children)
      (stands : StandsIn node around tree) :
      StandsIn node (around ++ [.tag kind name attributes children selfClosing])
        (.tag kind name attributes children selfClosing)
  | nested {kind : TagKind} {name key source : String} {attributes : Attributes}
      {children : List Node} {selfClosing : Bool} {pieces : List Piece} {around : List Node}
      {tree : Node} (mem : (key, .nested source pieces) ∈ attributes)
      (piece : .markup tree ∈ pieces) (stands : StandsIn node around tree) :
      StandsIn node (around ++ [.tag kind name attributes children selfClosing])
        (.tag kind name attributes children selfClosing)
  | embedded {source : String} {pieces : List Piece} {around : List Node} {tree : Node}
      (piece : .markup tree ∈ pieces) (stands : StandsIn node around tree) :
      StandsIn node around (.embedded source pieces)

theorem Node.StandsIn.partOf {node tree : Node} {around : List Node}
    (stands : node.StandsIn around tree) : node.PartOf tree := by
  induction stands with
  | root => exact .root
  | child mem _ ih => exact .child mem ih
  | nested mem piece _ ih => exact .nested mem piece ih
  | embedded piece _ ih => exact .embedded piece ih

section

variable {around : List Node} {place : TagAt}

theorem mem_kidTags {kids : List Node} :
    place ∈ kidTags around kids ↔ ∃ kid ∈ kids, place ∈ kid.tags around := by
  induction kids with
  | nil => simp [kidTags]
  | cons kid rest ih => simp [kidTags, ih]

theorem mem_pieceTags {parts : List Piece} :
    place ∈ pieceTags around parts ↔ ∃ root, .markup root ∈ parts ∧ place ∈ root.tags around := by
  induction parts with
  | nil => simp [pieceTags]
  | cons part rest ih =>
    cases part with
    | code text => simp [pieceTags, ih]
    | markup root => simp [pieceTags, ih, or_and_right, exists_or]

theorem mem_entryTags {attributes : Attributes} :
    place ∈ entryTags around attributes ↔ ∃ key source parts,
      (key, .nested source parts) ∈ attributes ∧ place ∈ pieceTags around parts := by
  induction attributes with
  | nil => simp [entryTags]
  | cons entry rest ih =>
    obtain ⟨name, given⟩ := entry
    cases given with
    | string | flag | expression => simp [entryTags, valueTags, ih]
    | nested source parts =>
      simp [entryTags, valueTags, ih, or_and_right, exists_or, and_assoc]

/-- The tags of a tree are those that stand in it. -/
theorem Node.mem_tags_iff (tree : Node) (outer : List Node) :
    place ∈ tree.tags outer ↔
      ∃ inner, place.around = inner ++ outer ∧ place.node.StandsIn inner tree := by
  induction tree using Node.induct generalizing outer with
  | tag kind name attributes kids selfClosing inContent inValues =>
    simp only [Node.tags, List.mem_cons, List.mem_append, mem_entryTags, mem_kidTags, mem_pieceTags]
    constructor
    · rintro (rfl | ⟨key, source, parts, mem, root, piece, inside⟩ | ⟨kid, mem, inside⟩)
      · exact ⟨[], rfl, .root⟩
      · obtain ⟨inner, same, stands⟩ := (inValues key source parts mem root piece _).1 inside
        exact ⟨_, by rw [same, List.append_cons], .nested mem piece stands⟩
      · obtain ⟨inner, same, stands⟩ := (inContent kid mem _).1 inside
        exact ⟨_, by rw [same, List.append_cons], .child mem stands⟩
    · rintro ⟨inner, same, stands⟩
      generalize whole : place.node = node at stands
      cases stands with
      | root =>
        obtain ⟨⟨kind, name, attributes, children, selfClosing⟩, around⟩ := place
        cases whole
        cases same
        exact .inl rfl
      | child mem stands =>
        rw [← List.append_cons] at same
        exact .inr (.inr ⟨_, mem, (inContent _ mem _).2 ⟨_, same, whole ▸ stands⟩⟩)
      | nested mem piece stands =>
        rw [← List.append_cons] at same
        exact .inr (.inl ⟨_, _, _, mem, _, piece,
          (inValues _ _ _ mem _ piece _).2 ⟨_, same, whole ▸ stands⟩⟩)
  | text segments =>
    simp only [Node.tags, List.not_mem_nil, false_iff, not_exists, not_and]
    intro inner _ stands
    generalize whole : place.node = node at stands
    cases stands
    cases whole
  | embedded source parts inCode =>
    simp only [Node.tags, mem_pieceTags]
    constructor
    · rintro ⟨root, piece, inside⟩
      obtain ⟨inner, same, stands⟩ := (inCode root piece _).1 inside
      exact ⟨inner, same, .embedded piece stands⟩
    · rintro ⟨inner, same, stands⟩
      generalize whole : place.node = node at stands
      cases stands with
      | root => cases whole
      | embedded piece stands =>
        exact ⟨_, piece, (inCode _ piece _).2 ⟨inner, same, whole ▸ stands⟩⟩

end

/-! ## Calls that are made -/

/-- Takes note of calls, and then gives a result. -/
def Call.noted {m : Type → Type} [Monad m] {α : Type} (record : Call → m Unit) (calls : List Call)
    (result : α) : m α := do
  calls.forM record
  return result

namespace Call

variable {m : Type → Type} [Monad m] [LawfulMonad m] {α β : Type} (record : Call → m Unit)

theorem hook_noted (call : Call) (edit : Id String → Id String) (calls : List Call)
    (text : String) :
    hook record call edit (noted record calls text) =
      noted record (call :: calls) (Id.run (edit (pure text))) := by
  simp [hook, noted]

theorem map_noted (f : α → β) (calls : List Call) (result : α) :
    f <$> noted record calls result = noted record calls (f result) := by
  simp [noted]

theorem noted_bind (f : α → β) (first second : List Call) (result : α) :
    (do let x ← noted record first result; noted record second (f x)) =
      noted record (first ++ second) (f result) := by
  simp [noted]

theorem mapM_noted {γ : Type} (call : γ → Call) (f : γ → α) (parts : List γ) :
    parts.mapM (fun part => noted record [call part] (f part)) =
      noted record (parts.map call) (parts.map f) := by
  induction parts with
  | nil => simp [noted]
  | cons part rest ih =>
    rw [List.mapM_cons, ih]
    simp [noted]

end Call

namespace Render

/-- A text among children gives an item for each of its segments. -/
theorem run_items_text (wrap : Hooks Id) (config : Config) (depth : Nat) (segments : List Segment)
    (rest : List Node) :
    Id.run (items wrap config depth (.text segments :: rest)) =
      (segments.map fun part => (Id.run (hookedSegment wrap config part), segmentFits part)) ++
        Id.run (items wrap config depth rest) := by
  have plain : segments.mapM (m := Id)
      (fun part => do return (← hookedSegment wrap config part, segmentFits part)) =
    pure (segments.map fun part => (Id.run (hookedSegment wrap config part), segmentFits part)) :=
    List.mapM_pure
  rw [items, plain]
  rfl

open Call (noted)

variable {m : Type → Type} [Monad m] [LawfulMonad m] (record : Call → m Unit) (wrap : Hooks Id)
  (config : Config)

theorem hookedSegment_recording (part : Segment) :
    hookedSegment (wrap.recording record) config part =
      noted record [.text part] (Id.run (hookedSegment wrap config part)) := by
  simp [hookedSegment, Hooks.recording, Call.hook, noted]

mutual

/-- The calls that are made, and the code that is written all the same. -/
theorem node_recording (around : List Node) : (given : Node) →
    node (wrap.recording record) config around.length given =
      noted record (given.calls around) (Id.run (node wrap config around.length given))
  | .tag kind name attributes kids selfClosing => by
    let self := Node.tag kind name attributes kids selfClosing
    simp only [node, Node.calls, bind_pure_comp]
    rw [entries_recording self around attributes, items_recording self around kids]
    simp only [Hooks.recording, Call.map_noted, Call.hook_noted, Call.noted_bind]
    rfl
  | .text segments => by
    have parts := Call.mapM_noted record .text
      (fun part => Id.run (hookedSegment wrap config part)) segments
    have plain : segments.mapM (hookedSegment wrap config) =
      pure (segments.map fun part => Id.run (hookedSegment wrap config part)) := List.mapM_pure
    simp only [node, Node.calls, bind_pure_comp, plain, parts, Call.map_noted,
      funext (hookedSegment_recording record wrap config)]
    simp only [Hooks.recording, Call.hook_noted]
    rfl
  | .embedded source parts => by
    simp only [node, Node.calls]
    rw [pieces_recording around parts]
    simp only [Hooks.recording, Call.map_noted, Call.hook_noted]
    rfl
termination_by structural given => given

theorem entries_recording (owner : Node) (around : List Node) :
    (attributes : List (String × AttrValue)) →
      entries (wrap.recording record) config around.length attributes =
        noted record (entryCalls (owner :: around) attributes)
          (Id.run (entries wrap config around.length attributes))
  | [] => by simp [entries, entryCalls, noted]
  | (name, given) :: rest => by
    simp only [entries, entryCalls, bind_pure_comp]
    rw [value_recording owner around name given, entries_recording owner around rest]
    simp only [Call.map_noted, Call.noted_bind]
    rfl
termination_by structural attributes => attributes

theorem value_recording (owner : Node) (around : List Node) (name : String) :
    (given : AttrValue) →
      value (wrap.recording record) config around.length name given =
        noted record (valueCalls (owner :: around) given)
          (Id.run (value wrap config around.length name given))
  | .string _ | .flag | .expression _ => by simp [value, valueCalls, noted]
  | .nested source parts => by
    have inside := pieces_recording (owner :: around) parts
    simp only [value, valueCalls]
    rw [← List.length_cons (a := owner), inside]
    simp only [Hooks.recording, Call.map_noted, Call.hook_noted]
    rfl
termination_by structural given => given

theorem items_recording (owner : Node) (around : List Node) : (kids : List Node) →
    items (wrap.recording record) config around.length kids =
      noted record (kidCalls (owner :: around) kids)
        (Id.run (items wrap config around.length kids))
  | [] => by simp [items, kidCalls, noted]
  | .text segments :: rest => by
    rw [run_items_text]
    simp only [items, kidCalls, bind_pure_comp]
    rw [items_recording owner around rest]
    simp only [hookedSegment_recording, Call.map_noted, Call.mapM_noted, Call.noted_bind]
  | .tag kind name attributes kids selfClosing :: rest => by
    have kid := node_recording (owner :: around) (.tag kind name attributes kids selfClosing)
    simp only [items, kidCalls, bind_pure_comp]
    rw [← List.length_cons (a := owner), kid, items_recording owner around rest]
    simp only [Call.map_noted, Call.noted_bind]
    rfl
  | .embedded source parts :: rest => by
    have kid := node_recording (owner :: around) (.embedded source parts)
    simp only [items, kidCalls, bind_pure_comp]
    rw [← List.length_cons (a := owner), kid, items_recording owner around rest]
    simp only [Call.map_noted, Call.noted_bind]
    rfl
termination_by structural kids => kids

theorem pieces_recording (around : List Node) : (parts : List Piece) →
    pieces (wrap.recording record) config around.length parts =
      noted record (pieceCalls around parts) (Id.run (pieces wrap config around.length parts))
  | [] => by simp [pieces, pieceCalls, noted]
  | .code text :: rest => by
    simp only [pieces, pieceCalls, bind_pure_comp]
    rw [pieces_recording around rest]
    simp only [Call.map_noted]
    rfl
  | .markup root :: rest => by
    simp only [pieces, pieceCalls, bind_pure_comp]
    rw [node_recording around root, pieces_recording around rest]
    simp only [Call.map_noted, Call.noted_bind]
    rfl
termination_by structural parts => parts

end

end Render

/-! ## Texts in order -/

/-- The texts stand in another text, and each begins at a later place than the one before it. -/
inductive Text.InTurn : List (List Char) → List Char → Prop
  | nil (whole : List Char) : InTurn [] whole
  | later (c : Char) {texts : List (List Char)} {whole : List Char} (rest : InTurn texts whole) :
      InTurn texts (c :: whole)
  | here {text : List Char} {texts : List (List Char)} {c : Char} {whole : List Char}
      (begins : text <+: c :: whole) (rest : InTurn texts whole) :
      InTurn (text :: texts) (c :: whole)

namespace Text.InTurn

variable {a b : List (List Char)} {x y whole : List Char}

theorem after (before : List Char) (rest : InTurn a x) : InTurn a (before ++ x) := by
  induction before with
  | nil => exact rest
  | cons c before ih => exact .later c ih

theorem append (first : InTurn a x) (second : InTurn b y) : InTurn (a ++ b) (x ++ y) := by
  induction first with
  | nil before => exact second.after before
  | later c _ ih => exact .later c ih
  | here begins _ ih => exact .here (begins.trans (List.prefix_append _ y)) ih

theorem before (first : InTurn a x) (beyond : List Char) : InTurn a (x ++ beyond) := by
  have both := first.append (.nil beyond)
  rwa [List.append_nil] at both

theorem inside (part : InTurn a x) (inside : x <:+: whole) : InTurn a whole := by
  obtain ⟨before, beyond, rfl⟩ := inside
  exact (part.after before).before beyond

/-- A text, and texts that begin in it somewhere after its first characters. -/
theorem self {head : List Char} (some : head ≠ []) (rest : InTurn a x)
    (inside : head ++ x <:+: whole) : InTurn (whole :: a) whole := by
  obtain ⟨before, beyond, rfl⟩ := inside
  obtain ⟨c, more, first⟩ :=
    List.exists_cons_of_ne_nil (List.append_ne_nil_of_right_ne_nil before some)
  have split : before ++ (head ++ x) ++ beyond = c :: (more ++ x ++ beyond) := by
    rw [← List.append_assoc before, first]
    rfl
  rw [split]
  exact .here (List.prefix_refl _) ((rest.after more).before beyond)

end Text.InTurn

/-- The texts stand in turn in the parts of a text, some in each. -/
inductive Text.EachInTurn : List (List Char) → List (List Char) → Prop
  | nil : EachInTurn [] []
  | cons {a b : List (List Char)} {part : List Char} {parts : List (List Char)}
      (first : InTurn a part) (rest : EachInTurn b parts) : EachInTurn (a ++ b) (part :: parts)

namespace Text.EachInTurn

variable {texts parts : List (List Char)}

theorem intercalate (each : EachInTurn texts parts) (separator : List Char) :
    InTurn texts (separator.intercalate parts) := by
  induction each with
  | nil => exact .nil _
  | cons first rest ih =>
    cases rest with
    | nil => simpa using first
    | cons second rest =>
      rw [List.intercalate_cons_cons]
      have both := first.append (ih.after separator)
      simpa using both

theorem flatten (each : EachInTurn texts parts) : InTurn texts parts.flatten := by
  induction each with
  | nil => exact .nil _
  | cons first rest ih => exact first.append ih

/-- Parts in which no text stands. -/
theorem skip (each : EachInTurn texts parts) (before : List (List Char)) :
    EachInTurn texts (before ++ parts) := by
  induction before with
  | nil => exact each
  | cons part before ih => exact .cons (.nil part) ih

/-- The same text before each part. -/
theorem behind (each : EachInTurn texts parts) (pad : List Char) :
    EachInTurn texts (parts.map (pad ++ ·)) := by
  induction each with
  | nil => exact .nil
  | cons first rest ih => exact .cons (first.after pad) ih

end Text.EachInTurn

namespace Render

open Text (InTurn EachInTurn)

theorem inTurn_object {texts : List (List Char)} {entries : List String}
    (each : EachInTurn texts (entries.map String.toList)) :
    InTurn texts (object entries).toList := by
  unfold object
  split
  · next none =>
    rw [List.isEmpty_iff.1 none] at each
    cases each
    exact .nil _
  · rw [String.toList_append, String.toList_append, String.toList_intercalate]
    exact ((each.intercalate _).after _).before _

theorem inTurn_arguments (config : Config) (depth : Nat) {texts : List (List Char)}
    {items : List (String × Bool)}
    (each : EachInTurn texts (items.map fun item => item.1.toList)) :
    InTurn texts (arguments config depth items).toList := by
  unfold arguments
  split
  · cases each
    exact .nil _
  · next item =>
    have line := each.flatten.after (", ").toList
    simpa using line
  · have block := (each.behind (indentation config (depth + 1)).toList).intercalate (",\n").toList
    simp only [String.toList_append, String.toList_intercalate, List.map_map, Function.comp_def]
      at block ⊢
    exact ((block.after _).before _).before _

variable {wrap : Hooks Id} (config : Config)

/-- What is written for a tag where it stands. -/
def written (wrap : Hooks Id) (config : Config) (place : TagAt) : List Char :=
  (Id.run (node wrap config place.depth place.node)).toList

/-- The call for a tag is written, whatever the hooks write around it. -/
theorem call_infix_node (keeps : wrap.Keeps) (depth : Nat) (kind : TagKind) (name : String)
    (attributes : Attributes) (kids : List Node) (selfClosing : Bool) :
    ((factory config kind).toList ++ '(' :: ((tagName kind name).toList ++ [',', ' '])) ++
        ((Id.run (props wrap config depth attributes)).toList ++
          (Id.run (children wrap config depth kids)).toList) <:+:
      (Id.run (node wrap config depth (.tag kind name attributes kids selfClosing))).toList := by
  let props := Id.run (props wrap config depth attributes)
  let children := Id.run (children wrap config depth kids)
  let call := s!"{factory config kind}({tagName kind name}, {props}{children})"
  have tagged := keeps.tag depth ⟨kind, name, attributes, kids, selfClosing⟩ call
  have whole := keeps.node depth (.tag kind name attributes kids selfClosing)
    (Id.run (wrap.tag depth ⟨kind, name, attributes, kids, selfClosing⟩ (pure call)))
  rw [node]
  refine .trans ⟨[], [')'], ?_⟩ (tagged.trans whole)
  simp [call, props, children, toString]

mutual

/-- What is written for the tags of a tree begins in their order. -/
theorem inTurn_node (keeps : wrap.Keeps) (around : List Node) : (given : Node) →
    InTurn ((given.tags around).map (written wrap config))
      (Id.run (node wrap config around.length given)).toList
  | .tag kind name attributes kids selfClosing => by
    let self := Node.tag kind name attributes kids selfClosing
    have inProps := (inTurn_object (inTurn_entries keeps self around attributes)).inside
      (keeps.props around.length attributes _)
    have inChildren := (inTurn_arguments config around.length
      (inTurn_items keeps self around kids)).inside (keeps.children around.length kids _)
    rw [Node.tags, List.map_cons, List.map_append]
    exact .self (by simp) (inProps.append inChildren)
      (call_infix_node config keeps around.length kind name attributes kids selfClosing)
  | .text segments => by
    rw [Node.tags]
    exact .nil _
  | .embedded source parts => by
    have joined := (inTurn_pieces keeps around parts).flatten
    rw [← List.flatMap_def, ← String.toList_join] at joined
    rw [Node.tags, node]
    exact (joined.inside (keeps.embedded around.length ⟨source, parts⟩ _)).inside
      (keeps.node around.length (.embedded source parts) _)
termination_by structural given => given

theorem inTurn_entries (keeps : wrap.Keeps) (owner : Node) (around : List Node) :
    (attributes : List (String × AttrValue)) →
      EachInTurn ((entryTags (owner :: around) attributes).map (written wrap config))
        ((Id.run (entries wrap config around.length attributes)).map String.toList)
  | [] => by
    rw [entryTags, entries]
    exact .nil
  | (name, given) :: rest => by
    have first := (inTurn_value keeps owner around name given).after (key name ++ ": ").toList
    rw [← String.toList_append] at first
    rw [entryTags, entries, List.map_append]
    exact .cons first (inTurn_entries keeps owner around rest)
termination_by structural attributes => attributes

theorem inTurn_value (keeps : wrap.Keeps) (owner : Node) (around : List Node) (name : String) :
    (given : AttrValue) →
      InTurn ((valueTags (owner :: around) given).map (written wrap config))
        (Id.run (value wrap config around.length name given)).toList
  | .string _ | .flag | .expression _ => by
    rw [valueTags]
    exact .nil _
  | .nested source parts => by
    have joined := (inTurn_pieces keeps (owner :: around) parts).flatten
    rw [← List.flatMap_def, ← String.toList_join] at joined
    rw [valueTags, value]
    exact joined.inside (keeps.embedded (around.length + 1) ⟨source, parts⟩ _)
termination_by structural given => given

theorem inTurn_items (keeps : wrap.Keeps) (owner : Node) (around : List Node) : (kids : List Node) →
    EachInTurn ((kidTags (owner :: around) kids).map (written wrap config))
      ((Id.run (items wrap config around.length kids)).map fun item => item.1.toList)
  | [] => by
    rw [kidTags, items]
    exact .nil
  | .text segments :: rest => by
    rw [kidTags, Node.tags, List.nil_append, run_items_text, List.map_append]
    exact (inTurn_items keeps owner around rest).skip _
  | .tag kind name attributes kids selfClosing :: rest => by
    rw [kidTags, items, List.map_append]
    · exact .cons (inTurn_node keeps (owner :: around) _) (inTurn_items keeps owner around rest)
    · simp
  | .embedded source parts :: rest => by
    rw [kidTags, items, List.map_append]
    · exact .cons (inTurn_node keeps (owner :: around) _) (inTurn_items keeps owner around rest)
    · simp
termination_by structural kids => kids

theorem inTurn_pieces (keeps : wrap.Keeps) (around : List Node) : (parts : List Piece) →
    EachInTurn ((pieceTags around parts).map (written wrap config))
      ((Id.run (pieces wrap config around.length parts)).map String.toList)
  | [] => by
    rw [pieceTags, pieces]
    exact .nil
  | .code text :: rest => by
    rw [pieceTags, pieces]
    exact (inTurn_pieces keeps around rest).skip [text.toList]
  | .markup root :: rest => by
    rw [pieceTags, pieces, List.map_append]
    exact .cons (inTurn_node keeps around root) (inTurn_pieces keeps around rest)
termination_by structural parts => parts

end

end Render

/-- **Every tag is written once, in order, at its own depth.**  Hooks of any kind that take note of
their calls see these calls and no others: two for each tag of the tree, and among them, in their
places, those for its attributes, its children, its texts and its code.  The tags are those that
stand in the tree, be it in content, in code or in the code of an attribute; the depth is the number
of tags around, of which the owner of an attribute is one and code is none.  If the hooks leave
what is written in its place, then what they write for the tags begins in the order of the calls. -/
theorem tags_called_in_turn {m : Type → Type} [Monad m] [LawfulMonad m] (record : Call → m Unit)
    (wrap : Hooks Id) (config : Config) (root : Node) :
    (Render.node (wrap.recording record) config 0 root = do
      (root.calls []).forM record
      return Id.run (Render.node wrap config 0 root)) ∧
    (root.calls []).filter Call.isTag = (root.tags []).flatMap (fun place =>
      [.node place.around.length place.node, .tag place.around.length place.toTag]) ∧
    (∀ place, place ∈ root.tags [] ↔ place.node.StandsIn place.around root) ∧
    (wrap.Keeps → Text.InTurn
      ((root.tags []).map fun place =>
        (Id.run (Render.node wrap config place.around.length place.node)).toList)
      (Id.run (Render.node wrap config 0 root)).toList) := by
  refine ⟨Render.node_recording record wrap config [] root, root.filter_calls [], fun place => ?_,
    fun keeps => Render.inTurn_node config keeps [] root⟩
  simp [root.mem_tags_iff []]

/-- Hooks that put brackets around the call for each tag. -/
def Hooks.bracketing : Hooks Id :=
  { Hooks.none with tag := fun _ _ usual => do return "[" ++ (← usual) ++ "]" }

theorem Hooks.keeps_bracketing : Hooks.bracketing.Keeps where
  node _ _ _ := List.infix_rfl
  tag _ _ text := ⟨['['], [']'], by simp [Hooks.bracketing]⟩
  props _ _ _ := List.infix_rfl
  children _ _ _ := List.infix_rfl
  embedded _ _ _ := List.infix_rfl

/-- A component with a tag in an attribute, and with tags in code. -/
def badge : Node :=
  .tag .component "Badge" [("icon", .nested "<i/>" [.markup (.tag .element "i" [] [] true)])]
    [.embedded "on && <b><u/></b>" [.code "on && ",
      .markup (.tag .element "b" [] [.tag .element "u" [] [] true] false)]] false

/-- Adds a call to the end of a log. -/
def Call.log (call : Call) : StateM (List Call) Unit := modify (· ++ [call])

theorem Call.run_forM_log (calls before : List Call) :
    (calls.forM Call.log).run before = ((), before ++ calls) := by
  induction calls generalizing before with
  | nil =>
    rw [List.append_nil]
    rfl
  | cons call rest ih =>
    rw [List.append_cons, ← ih]
    rfl

/-- The owner of an attribute is around the tag in it; code is around none. -/
theorem tags_called_in_turn_badge :
    ((Render.node (Hooks.bracketing.recording Call.log) Config.standard 0 badge).run []).2.filter
      Call.isTag = (badge.tags []).flatMap TagAt.calls ∧
    (badge.tags []).map (fun place => (place.name, place.depth)) =
      [("Badge", 0), ("i", 1), ("b", 1), ("u", 2)] ∧
    Id.run (Render.node Hooks.bracketing Config.standard 0 badge) =
      "[h(Badge, \x7bicon: [h('i', null)]\x7d, on && [h('b', null, [h('u', null)])])]" ∧
    Text.InTurn
      ((badge.tags []).map fun place =>
        (Id.run (Render.node Hooks.bracketing Config.standard place.depth place.node)).toList)
      (Id.run (Render.node Hooks.bracketing Config.standard 0 badge)).toList := by
  obtain ⟨made, tags, -, turn⟩ :=
    tags_called_in_turn Call.log Hooks.bracketing Config.standard badge
  refine ⟨?_, by decide +kernel, by decide +kernel, turn Hooks.keeps_bracketing⟩
  rw [made, StateT.run_bind, Call.run_forM_log]
  exact tags

end InlineMarkup
