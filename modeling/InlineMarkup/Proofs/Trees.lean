import InlineMarkup.Proofs.Nesting
import InlineMarkup.Proofs.Totality

/-!
# InlineMarkup.Proofs.Trees

What holds of every node that is read.  Trees nest in three ways: tags have
children, code among them holds markup, and so does code in attributes.
`Node.PartOf` follows all three.

Nodes are made in three places, one for each kind, and `Fragment.Made` says what
each of them knows about the node it makes, and about the place it is made at if
reading stays in a `Fragment.Region`.  A property that these three make sure of holds
of every node of every tree: `Fragment.Made.split` for the trees in code,
`Fragment.Made.parse` for the tree of a text, `Fragment.Made.parseIn` for a region.
Trees are read by recursive descent (`Descent.readRoot_eq_element`), and the code
inside them is shorter than the text they are read from, so one induction on the text
left (`Fragment.Made.Upto`) goes through content, attributes and code at once.
-/

namespace InlineMarkup

open Outcome (bind_eq_ok mem_mapM)

/-! ## Nodes of a tree -/

namespace Node

/-- A node of a tree: its root, or a node of a tree that stands in its content, in
its code, or in the code of an attribute. -/
inductive PartOf (node : Node) : Node → Prop
  | root : PartOf node node
  | child {kind : TagKind} {name : String} {attributes : Attributes} {children : List Node}
      {selfClosing : Bool} {tree : Node} (mem : tree ∈ children) (part : PartOf node tree) :
      PartOf node (.tag kind name attributes children selfClosing)
  | nested {kind : TagKind} {name key source : String} {attributes : Attributes}
      {children : List Node} {selfClosing : Bool} {pieces : List Piece} {tree : Node}
      (mem : (key, .nested source pieces) ∈ attributes) (piece : .markup tree ∈ pieces)
      (part : PartOf node tree) : PartOf node (.tag kind name attributes children selfClosing)
  | embedded {source : String} {pieces : List Piece} {tree : Node}
      (piece : .markup tree ∈ pieces) (part : PartOf node tree) :
      PartOf node (.embedded source pieces)

/-- A property of trees that a tree has if all trees in it have it: those in its content,
in its code, and in the code of its attributes. -/
@[elab_as_elim]
theorem induct {motive : Node → Prop}
    (tag : ∀ (kind : TagKind) (name : String) (attributes : Attributes) (children : List Node)
      (selfClosing : Bool), (∀ child ∈ children, motive child) →
        (∀ key source pieces, (key, .nested source pieces) ∈ attributes →
          ∀ tree, .markup tree ∈ pieces → motive tree) →
        motive (.tag kind name attributes children selfClosing))
    (text : ∀ segments, motive (.text segments))
    (embedded : ∀ source pieces, (∀ tree, .markup tree ∈ pieces → motive tree) →
      motive (.embedded source pieces))
    (tree : Node) : motive tree := by
  cases tree with
  | tag kind name attributes children selfClosing =>
    exact tag kind name attributes children selfClosing
      (fun child _mem => induct tag text embedded child)
      (fun _ _ _ _mem tree _piece => induct tag text embedded tree)
  | text segments => exact text segments
  | embedded source pieces =>
    exact embedded source pieces fun tree _piece => induct tag text embedded tree
termination_by sizeOf tree
decreasing_by
  · have inside := List.sizeOf_lt_of_mem _mem
    simp only [Node.tag.sizeOf_spec]
    omega
  · have entry := List.sizeOf_lt_of_mem _mem
    have inside := List.sizeOf_lt_of_mem _piece
    simp only [Prod.mk.sizeOf_spec, AttrValue.nested.sizeOf_spec, Piece.markup.sizeOf_spec,
      Node.tag.sizeOf_spec] at entry inside ⊢
    omega
  · have inside := List.sizeOf_lt_of_mem _piece
    simp only [Piece.markup.sizeOf_spec, Node.embedded.sizeOf_spec] at inside ⊢
    omega

/-- Every node of a tree has a property. -/
def All (P : Node → Prop) (tree : Node) : Prop := ∀ node : Node, node.PartOf tree → P node

variable {P : Node → Prop}

theorem All.tag {kind : TagKind} {name : String} {attributes : Attributes} {children : List Node}
    {selfClosing : Bool} (own : P (.tag kind name attributes children selfClosing))
    (inside : ∀ child ∈ children, child.All P)
    (nested : ∀ key source pieces, (key, .nested source pieces) ∈ attributes →
      ∀ tree, .markup tree ∈ pieces → tree.All P) :
    (Node.tag kind name attributes children selfClosing).All P := by
  intro node part
  cases part with
  | root => exact own
  | child mem part => exact inside _ mem node part
  | nested mem piece part => exact nested _ _ _ mem _ piece node part

theorem All.text {segments : List Segment} (own : P (.text segments)) :
    (Node.text segments).All P := by
  intro node part
  cases part with
  | root => exact own

theorem All.embedded {source : String} {pieces : List Piece} (own : P (.embedded source pieces))
    (inside : ∀ tree, .markup tree ∈ pieces → tree.All P) : (Node.embedded source pieces).All P := by
  intro node part
  cases part with
  | root => exact own
  | embedded piece part => exact inside _ piece node part

end Node

/-! ## Attributes of a tag -/

namespace Fragment

/-- Values that are nested come from code that holds markup. -/
theorem nestValue_cases {reader : Reader} {value nested : AttrValue}
    (h : nestValue reader value = .ok nested) :
    nested = value ∧ (∀ code, value = .expression code → Host.containsMarkup code.toList = false) ∨
      ∃ code pieces, value = .expression code ∧ Host.containsMarkup code.toList = true ∧
        reader.cut code = .ok pieces ∧ nested = .nested code pieces := by
  unfold nestValue at h
  split at h
  · next code =>
    split at h
    · next holds =>
      obtain ⟨pieces, cut, h⟩ := bind_eq_ok.1 h
      cases h
      exact .inr ⟨code, pieces, rfl, holds, cut, rfl⟩
    · next bare =>
      cases h
      refine .inl ⟨rfl, fun code same => ?_⟩
      cases same
      exact Bool.eq_false_iff.2 bare
  · next other =>
    cases h
    exact .inl ⟨rfl, fun code same => absurd same (other code)⟩

/-- Code in the attributes of a tag is cut into pieces if and only if it holds
markup. -/
theorem value_of_header {reader : Reader} {cur after : Cursor} {header : Header}
    {attributes : Attributes} (taken : Header.read reader.mode cur = .ok (header, after))
    (h : nestAttributes reader header.attributes = .ok attributes) {key : String} {value : AttrValue}
    (mem : (key, value) ∈ attributes) :
    (∀ code, value = .expression code → Host.containsMarkup code.toList = false) ∧
      ∀ source pieces, value = .nested source pieces → Host.containsMarkup source.toList = true ∧
        reader.cut source = .ok pieces ∧ (key, .expression source) ∈ header.attributes := by
  obtain ⟨⟨name, written⟩, inside, same⟩ := mem_mapM h _ mem
  obtain ⟨result, nested, same⟩ := bind_eq_ok.1 same
  cases same
  have plain : ∀ entry ∈ header.attributes, ∀ source pieces, entry.2 ≠ .nested source pieces :=
    Header.forall_values (P := fun value => ∀ source pieces, value ≠ .nested source pieces)
      (by simp) (by simp) (by simp) taken
  obtain ⟨rfl, bare⟩ | ⟨code, pieces, rfl, holds, cut, rfl⟩ := nestValue_cases nested
  · exact ⟨bare, fun source pieces same => absurd same (plain _ inside source pieces)⟩
  · refine ⟨by simp, fun source other same => ?_⟩
    cases same
    exact ⟨holds, cut, inside⟩

theorem markup_not_mem_codePieces (code : List Char) (tree : Node) :
    .markup tree ∉ codePieces code := by
  unfold codePieces
  split
  · simp
  · simp

end Fragment

/-! ## Where nodes are made -/

/-- A segment without markup in its code. -/
def Segment.Bare : Segment → Prop
  | .literal _ => True
  | .expression code => Host.containsMarkup code.toList = false

/-- Places that reading does not leave, neither by reading on nor by reading the code in a
tag or in content. -/
structure Fragment.Region (mode : Mode) (At : Cursor → Prop) : Prop where
  onward : ∀ {cur later : Cursor}, At cur → cur.Reaches later → At later
  value : ∀ {cur after : Cursor} {header : Header} {key code : String}, At cur →
    Host.MarkupStart cur.rest → Header.read mode cur.next = .ok (header, after) →
      (key, .expression code) ∈ header.attributes → At (.ofList code.toList)
  segment : ∀ {cur after : Cursor} {segments : List Segment} {code : String}, At cur →
    Content.read mode cur = .ok (segments, after) → .expression code ∈ segments →
      At (.ofList code.toList)

/-- All places. -/
def Fragment.Anywhere (_ : Cursor) : Prop := True

theorem Fragment.region_anywhere (mode : Mode) : Region mode Anywhere :=
  ⟨fun _ _ => trivial, fun _ _ _ _ => trivial, fun _ _ _ => trivial⟩

/-- What is known of a node where it is made, in a region, for a property of nodes that
follows from it. -/
structure Fragment.Made (mode : Mode) (At : Cursor → Prop) (P : Node → Prop) : Prop where
  /-- A tag is made from a header, with the code of its attributes cut into pieces. -/
  tag : ∀ {cur after : Cursor} {header : Header} {attributes : Attributes} {children : List Node},
    At cur → Host.MarkupStart cur.rest → Header.read mode cur.next = .ok (header, after) →
      Fragment.nestAttributes (Fragment.reader .plain mode) header.attributes = .ok attributes →
        (header.selfClosing = true → children = []) →
          P (.tag (Descent.kindOf header.name) header.name attributes children header.selfClosing)
  /-- A text is made from segments that were read together. -/
  text : ∀ {cur after : Cursor} {segments run : List Segment},
    At cur → Content.read mode cur = .ok (segments, after) → run ⊆ segments → run ≠ [] →
      (∀ segment ∈ run, segment.Bare) → P (.text run)
  /-- Code that holds markup stands for itself. -/
  embedded : ∀ {code : String} {pieces : List Piece}, Host.containsMarkup code.toList = true →
    Fragment.split .plain mode code = .ok pieces → P (.embedded code pieces)

namespace Descent

section

variable {cut : String → Except Error (List Piece)} {Q : Node → Prop} {whole : List Segment}
  (text : ∀ run, run ⊆ whole → run ≠ [] → (∀ segment ∈ run, segment.Bare) → Q (.text run))

include text

theorem forall_textNodes {run : List Segment} (inside : run ⊆ whole)
    (bare : ∀ segment ∈ run, segment.Bare) : ∀ node ∈ textNodes run, Q node := by
  unfold textNodes
  split
  · simp
  · next visible => simpa using text run inside (by simpa using visible) bare

/-- The nodes of a text read: texts of its segments without markup, and its code
with markup. -/
theorem forall_textAndCode
    (embedded : ∀ code pieces, .expression code ∈ whole → Host.containsMarkup code.toList = true →
      cut code = .ok pieces → Q (.embedded code pieces))
    {run segments : List Segment} {nodes : List Node} (before : run ⊆ whole)
    (bare : ∀ segment ∈ run, segment.Bare) (after : segments ⊆ whole)
    (h : textAndCode cut run segments = .ok nodes) : ∀ node ∈ nodes, Q node := by
  induction segments generalizing run nodes with
  | nil =>
    cases h
    exact forall_textNodes text before bare
  | cons segment rest ih =>
    obtain ⟨first, later⟩ := List.cons_subset.1 after
    have longer : run ++ [segment] ⊆ whole := List.append_subset.2 ⟨before, by simpa using first⟩
    have barer (own : segment.Bare) : ∀ other ∈ run ++ [segment], other.Bare :=
      List.forall_mem_append.2 ⟨bare, List.forall_mem_singleton.2 own⟩
    cases segment with
    | literal text => exact ih longer (barer trivial) later h
    | expression code =>
      simp only [textAndCode] at h
      split at h
      · next holds =>
        obtain ⟨pieces, taken, h⟩ := bind_eq_ok.1 h
        obtain ⟨following, read, h⟩ := bind_eq_ok.1 h
        cases h
        refine List.forall_mem_append.2 ⟨forall_textNodes text before bare, ?_⟩
        exact List.forall_mem_cons.2 ⟨embedded code pieces first holds taken,
          ih (List.nil_subset _) (by simp) later read⟩
      · next plain => exact ih longer (barer (Bool.eq_false_iff.2 plain)) later h

end

end Descent

/-! ## Every node of every tree -/

namespace Fragment.Made

open Descent (plain element)

variable {mode : Mode} {At : Cursor → Prop} {P : Node → Prop} {n : Nat}

/-- The trees read in a region from `n` characters at most have the property throughout. -/
def Upto (mode : Mode) (At : Cursor → Prop) (P : Node → Prop) (n : Nat) : Prop :=
  ∀ (cur : Cursor) (more : cur.rest ≠ []) (node : Node) (stop : Cursor), At cur →
    cur.rest.length ≤ n → Host.MarkupStart cur.rest →
      plain (element mode (split .plain mode) cur more) = .ok (node, stop) → node.All P

namespace Upto

/-- The tree of a fragment, as it is read by the loop over tags. -/
theorem readRoot (trees : Upto mode At P n) {cur stop : Cursor} {root : Node} (here : At cur)
    (size : cur.rest.length ≤ n) (start : Host.MarkupStart cur.rest)
    (h : Fragment.readRoot (reader .plain mode) cur = .ok (some root, stop)) : root.All P := by
  have more := Descent.rest_ne_nil_of_start start
  rw [reader, Descent.readRoot_eq_element mode _ _ more] at h
  obtain ⟨⟨node, after⟩, taken, same⟩ := bind_eq_ok.1 h
  cases same
  exact trees cur more _ _ here size start taken

variable (region : Region mode At)

include region

/-- The trees in code. -/
theorem splitWith (trees : Upto mode At P n) {cur : Cursor} {pieces : List Piece} (here : At cur)
    (size : cur.rest.length ≤ n) (h : Fragment.splitWith (reader .plain mode) cur = .ok pieces) :
    ∀ tree, .markup tree ∈ pieces → tree.All P := by
  fun_induction Fragment.splitWith (reader .plain mode) cur generalizing pieces with
  | case1 => contradiction
  | case2 cur found =>
    cases h
    exact fun tree mem => absurd mem (markup_not_mem_codePieces _ _)
  | case3 cur fragment found ih =>
    obtain ⟨following, later, h⟩ := bind_eq_ok.1 h
    cases h
    obtain ⟨sought, read⟩ := readRoot_of_nextWith found
    obtain ⟨ahead, begins⟩ := Host.seek_sound sought
    have shorter := length_nextWith found
    have there := region.onward here ahead
    have beyond := region.onward there ((Cursor.reaches_next _).trans (reaches_readRoot read))
    have own := trees.readRoot there (Nat.le_trans ahead.length_le size) begins read
    intro tree mem
    rcases List.mem_append.1 mem with before | mem
    · exact absurd before (markup_not_mem_codePieces _ _)
    rcases List.mem_cons.1 mem with same | after
    · cases same
      exact own
    · exact ih beyond (by omega) later tree after

/-- The trees in code, however it was found. -/
theorem split (trees : Upto mode At P n) {code : String} {pieces : List Piece}
    (here : At (.ofList code.toList)) (size : code.length ≤ n)
    (h : Fragment.split .plain mode code = .ok pieces) :
    ∀ tree, .markup tree ∈ pieces → tree.All P := by
  rw [split_eq] at h
  exact trees.splitWith region here (Nat.le_trans (Nat.le_of_eq String.length_toList) size) h

/-- The trees in content. -/
theorem content (trees : Upto mode At P n) (made : Made mode At P) {name : String}
    {cur stop : Cursor} {children : List Node} (here : At cur) (size : cur.rest.length ≤ n)
    (h : plain (Descent.content mode (Fragment.split .plain mode) name cur) = .ok (children, stop)) :
    ∀ child ∈ children, child.All P := by
  -- Content goes on after a child, and after a closing tag that closes nothing.
  generalize length : cur.rest.length = m
  induction m using Nat.strongRecOn generalizing cur children with
  | ind m ih =>
    rw [Descent.plain_content] at h
    obtain ⟨⟨segments, after⟩, read, h⟩ := bind_eq_ok.1 h
    obtain ⟨nodes, gathered, h⟩ := bind_eq_ok.1 h
    dsimp only at gathered h
    have there := region.onward here (Content.reaches_read read)
    have onward := (Content.reaches_read read).length_le
    have short := Content.shorter_of_read read
    have texts : ∀ node ∈ nodes, node.All P :=
      Descent.forall_textAndCode
        (fun run inside visible bare => .text (made.text here read inside visible bare))
        (fun code pieces inside holds taken => .embedded (made.embedded holds taken)
          (trees.split region (region.segment here read inside)
            (Nat.le_trans (Nat.le_of_lt (short _ inside)) size) taken))
        (List.nil_subset _) (by simp) (List.Subset.refl _) gathered
    split at h
    · cases mode with
      | strict => contradiction
      | lenient => cases h; exact texts
    · next more =>
      split at h
      · split at h
        · contradiction
        split at h
        · obtain ⟨⟨following, last⟩, later, h⟩ := bind_eq_ok.1 h
          cases h
          have shorter := (Descent.closing after more).after.2
          have beyond := region.onward there (Descent.reaches_closing more)
          exact List.forall_mem_append.2 ⟨texts, ih _ (by omega) beyond (by omega) later rfl⟩
        split at h
        · contradiction
        · cases h; exact texts
      · next opening =>
        obtain ⟨⟨child, next⟩, taken, h⟩ := bind_eq_ok.1 h
        obtain ⟨⟨following, last⟩, later, h⟩ := bind_eq_ok.1 h
        cases h
        dsimp only at later
        have start := markupStart_iff.1 ⟨Content.tagBegins_of_read read more, opening⟩
        have shorter : next.rest.length < after.rest.length := Descent.bound_of_plain taken
        have beyond := region.onward there
          ((Cursor.reaches_next _).trans (Descent.reaches_element more taken))
        refine List.forall_mem_append.2 ⟨texts, List.forall_mem_cons.2 ⟨?_, ?_⟩⟩
        · exact trees after more child next there (by omega) start taken
        · exact ih _ (by omega) beyond (by omega) later rfl

/-- A tree read from a character more. -/
theorem succ (trees : Upto mode At P n) (made : Made mode At P) : Upto mode At P (n + 1) := by
  intro cur more node stop here size start h
  rw [Descent.plain_element] at h
  obtain ⟨⟨header, after⟩, taken, h⟩ := bind_eq_ok.1 h
  obtain ⟨attributes, nested, h⟩ := bind_eq_ok.1 h
  dsimp only at nested h
  have one := Cursor.length_next_lt more
  have onward := (Header.reaches_read taken).length_le
  have values : ∀ key source pieces, (key, .nested source pieces) ∈ attributes →
      ∀ tree, .markup tree ∈ pieces → tree.All P := by
    intro key source pieces mem
    obtain ⟨-, cut, written⟩ := (value_of_header taken nested mem).2 source pieces rfl
    have short : source.length < cur.next.rest.length := Header.shorter_of_read taken _ written
    exact trees.split region (region.value here start taken written) (by omega) cut
  cases leaf : header.selfClosing with
  | true =>
    rw [leaf, if_pos rfl] at h
    cases h
    refine .tag ?_ (by simp) values
    rw [← leaf]
    exact made.tag here start taken nested fun _ => rfl
  | false =>
    rw [leaf, if_neg Bool.false_ne_true] at h
    obtain ⟨⟨children, last⟩, inside, h⟩ := bind_eq_ok.1 h
    cases h
    have there := region.onward here ((Cursor.reaches_next cur).trans (Header.reaches_read taken))
    refine .tag ?_ (trees.content region made there (by omega) inside) values
    have closed : header.selfClosing = true → children = [] := by simp [leaf]
    rw [← leaf]
    exact made.tag here start taken nested closed

end Upto

theorem upto (made : Made mode At P) (region : Region mode At) (n : Nat) : Upto mode At P n := by
  induction n with
  | zero =>
    exact fun cur more node stop here size => absurd (List.length_eq_zero_iff.1 (by omega)) more
  | succ n ih => exact ih.succ region made

/-- **What is known of every node made holds throughout every tree** in code. -/
theorem split (made : Made mode Anywhere P) {code : String} {pieces : List Piece}
    (h : Fragment.split .plain mode code = .ok pieces) :
    ∀ tree, .markup tree ∈ pieces → tree.All P :=
  have region := region_anywhere mode
  (made.upto region code.length).split region trivial (Nat.le_refl _) h

/-- The same for the tree of a text that lies in a region. -/
theorem parseIn (made : Made mode At P) (region : Region mode At) {text : String} {root : Node}
    (here : At (.ofList text.toList)) (h : Fragment.parse .plain mode text = .ok root) :
    root.All P := by
  have there := region.onward here (Cursor.reaches_skipSpace _)
  unfold Fragment.parse at h
  dsimp only at h
  generalize (Cursor.ofList text.toList).skipSpace = cur at h there
  split at h
  · next begins =>
    obtain ⟨⟨found, after⟩, read, h⟩ := bind_eq_ok.1 h
    obtain ⟨node, rfl⟩ := exists_root read
    dsimp only at h
    split at h
    · contradiction
    · cases h
      exact (made.upto region _).readRoot there (Nat.le_refl _) (markupStart_iff.1 begins) read
  · split at h
    · contradiction
    · contradiction

/-- The same for any text. -/
theorem parse (made : Made mode Anywhere P) {text : String} {root : Node}
    (h : Fragment.parse .plain mode text = .ok root) : root.All P :=
  made.parseIn (region_anywhere mode) trivial h

end Fragment.Made

end InlineMarkup
