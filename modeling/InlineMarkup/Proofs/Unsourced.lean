import InlineMarkup.Proofs.Fork
import InlineMarkup.Proofs.Totality
import Mathlib.Data.List.Forall2

/-!
# InlineMarkup.Proofs.Unsourced

Trees without their sources.  Code that holds markup is kept as written beside the pieces
that it is cut into, but nothing is ever made of it again: not by what is read after it, and not
by the code that is written for the tree.  So where two trees differ only there, they stand for
the same.

* `Node.render_unsourced`: what is written for a tree does not depend on its sources;
* `Assembly.unsourced_attach` and so on: nor does how a tree is put together;
* `Fragment.addSegments_alike`, `Header.run_alike`: code that is cut alike can take the place of
  other code in content and in attributes;
* `Fragment.readOn_alike`: reading on from trees that are alike ends with such trees.
-/

namespace InlineMarkup

open Outcome (bind_eq_ok ok_bind)

/-! ## Trees -/

mutual

/-- The tree without the code that it was read from, where the tree holds it cut into
pieces. -/
def Node.unsourced : Node → Node
  | .tag kind name attributes children selfClosing =>
    .tag kind name (attributes.map fun entry => (entry.1, entry.2.unsourced))
      (children.map Node.unsourced) selfClosing
  | .text segments => .text segments
  | .embedded _ pieces => .embedded "" (pieces.map Piece.unsourced)
termination_by node => sizeOf node
decreasing_by
  · have inside := List.sizeOf_lt_of_mem ‹_›
    have whole := Prod.mk.sizeOf_spec entry.1 entry.2
    simp only [Prod.eta] at whole
    simp only [Node.tag.sizeOf_spec]
    omega
  · have inside := List.sizeOf_lt_of_mem ‹_›
    simp only [Node.tag.sizeOf_spec]
    omega
  · have inside := List.sizeOf_lt_of_mem ‹_›
    simp only [Node.embedded.sizeOf_spec]
    omega

/-- The value without the code that it was read from. -/
def AttrValue.unsourced : AttrValue → AttrValue
  | .nested _ pieces => .nested "" (pieces.map Piece.unsourced)
  | .string value => .string value
  | .flag => .flag
  | .expression code => .expression code
termination_by value => sizeOf value
decreasing_by
  have inside := List.sizeOf_lt_of_mem ‹_›
  simp only [AttrValue.nested.sizeOf_spec]
  omega

/-- The piece without the code that its tree was read from. -/
def Piece.unsourced : Piece → Piece
  | .code text => .code text
  | .markup root => .markup root.unsourced
termination_by piece => sizeOf piece
decreasing_by
  simp only [Piece.markup.sizeOf_spec]
  omega

end

/-- The attributes without the code that their values were read from. -/
def Attributes.unsourced (attributes : Attributes) : Attributes :=
  attributes.map fun entry => (entry.1, entry.2.unsourced)

namespace Node

@[simp] theorem unsourced_tag (kind : TagKind) (name : String) (attributes : Attributes)
    (children : List Node) (selfClosing : Bool) :
    (tag kind name attributes children selfClosing).unsourced =
      tag kind name attributes.unsourced (children.map Node.unsourced) selfClosing := by
  rw [Node.unsourced]
  rfl

@[simp] theorem unsourced_text (segments : List Segment) :
    (text segments).unsourced = text segments := by
  rw [Node.unsourced]

@[simp] theorem unsourced_embedded (source : String) (pieces : List Piece) :
    (embedded source pieces).unsourced = embedded "" (pieces.map Piece.unsourced) := by
  rw [Node.unsourced]

@[simp] theorem name?_unsourced (node : Node) : node.unsourced.name? = node.name? := by
  cases node with
  | tag => rw [unsourced_tag]; rfl
  | text => rw [unsourced_text]
  | embedded => rw [unsourced_embedded]; rfl

theorem unsourced_pushChild (parent child : Node) :
    (parent.pushChild child).unsourced = parent.unsourced.pushChild child.unsourced := by
  cases parent with
  | tag kind name attributes children selfClosing =>
    cases selfClosing with
    | true => simp [pushChild]
    | false => simp [pushChild]
  | text => simp [pushChild]
  | embedded => simp [pushChild]

end Node

namespace Piece

@[simp] theorem unsourced_code (text : String) : (code text).unsourced = code text := by
  rw [Piece.unsourced]

@[simp] theorem unsourced_markup (root : Node) :
    (markup root).unsourced = markup root.unsourced := by
  rw [Piece.unsourced]

end Piece

/-! ## Code written -/

namespace Render

section

variable {m : Type → Type} [Monad m] (config : Config)

theorem nodeFits_unsourced (node : Node) : nodeFits node.unsourced = nodeFits node := by
  cases node with
  | tag => simp [nodeFits]
  | text => simp
  | embedded => simp [nodeFits]

mutual

/-- The code written for a node does not depend on its sources. -/
theorem node_unsourced (depth : Nat) : (given : Node) →
    node (m := m) Hooks.none config depth given.unsourced = node Hooks.none config depth given
  | .tag kind name attributes kids selfClosing => by
    rw [Node.unsourced_tag]
    simp only [node]
    rw [Attributes.unsourced, entries_unsourced depth attributes, items_unsourced depth kids]
    rfl
  | .text segments => by rw [Node.unsourced_text]
  | .embedded source parts => by
    rw [Node.unsourced_embedded]
    simp only [node]
    rw [pieces_unsourced depth parts]
    rfl

theorem entries_unsourced (depth : Nat) : (attributes : List (String × AttrValue)) →
    entries (m := m) Hooks.none config depth
        (attributes.map fun entry => (entry.1, entry.2.unsourced)) =
      entries Hooks.none config depth attributes
  | [] => rfl
  | (name, given) :: rest => by
    simp only [entries, List.map_cons]
    rw [value_unsourced depth name given, entries_unsourced depth rest]

theorem value_unsourced (depth : Nat) (name : String) : (given : AttrValue) →
    value (m := m) Hooks.none config depth name given.unsourced =
      value Hooks.none config depth name given
  | .string _ | .flag | .expression _ => by rw [AttrValue.unsourced]
  | .nested source parts => by
    rw [AttrValue.unsourced]
    simp only [value]
    rw [pieces_unsourced (depth + 1) parts]
    rfl

theorem items_unsourced (depth : Nat) : (kids : List Node) →
    items (m := m) Hooks.none config depth (kids.map Node.unsourced) =
      items Hooks.none config depth kids
  | [] => rfl
  | .text segments :: rest => by
    simp only [items, List.map_cons, Node.unsourced_text]
    rw [items_unsourced depth rest]
  | .tag kind name attributes kids selfClosing :: rest => by
    have child := node_unsourced (depth + 1) (.tag kind name attributes kids selfClosing)
    have fits := nodeFits_unsourced (.tag kind name attributes kids selfClosing)
    rw [Node.unsourced_tag] at child fits
    simp only [items, List.map_cons, Node.unsourced_tag]
    rw [child, fits, items_unsourced depth rest]
  | .embedded source parts :: rest => by
    have child := node_unsourced (depth + 1) (.embedded source parts)
    rw [Node.unsourced_embedded] at child
    simp only [items, List.map_cons, Node.unsourced_embedded]
    rw [child, items_unsourced depth rest]
    rfl

theorem pieces_unsourced (depth : Nat) : (parts : List Piece) →
    pieces (m := m) Hooks.none config depth (parts.map Piece.unsourced) =
      pieces Hooks.none config depth parts
  | [] => rfl
  | .code text :: rest => by
    simp only [pieces, List.map_cons, Piece.unsourced_code]
    rw [pieces_unsourced depth rest]
  | .markup root :: rest => by
    simp only [pieces, List.map_cons, Piece.unsourced_markup]
    rw [node_unsourced depth root, pieces_unsourced depth rest]

end

end

end Render

/-- What is written for a tree does not depend on its sources. -/
theorem Node.render_unsourced (config : Config) (tree : Node) :
    tree.unsourced.render config = tree.render config := by
  rw [Node.render, Node.render, Render.node_unsourced]

/-! ## Trees half put together -/

namespace Assembly

/-- A tree half put together, without the code that it was read from. -/
def unsourced (assembly : Assembly) : Assembly :=
  ⟨assembly.stack.map Node.unsourced, assembly.root.map Node.unsourced⟩

@[simp] theorem currentName?_unsourced (assembly : Assembly) :
    assembly.unsourced.currentName? = assembly.currentName? := by
  obtain ⟨stack, root⟩ := assembly
  cases stack with
  | nil => rfl
  | cons node outer => exact node.name?_unsourced

theorem unsourced_attach (node : Node) (assembly : Assembly) :
    (assembly.attach node).unsourced = assembly.unsourced.attach node.unsourced := by
  obtain ⟨stack, root⟩ := assembly
  cases stack with
  | nil => cases root <;> rfl
  | cons parent outer => simp [attach, unsourced, Node.unsourced_pushChild]

theorem unsourced_openTag (header : Header) (assembly : Assembly) :
    assembly.unsourced.openTag .plain { header with attributes := header.attributes.unsourced } =
      ((assembly.openTag .plain header).1, (assembly.openTag .plain header).2.unsourced) := by
  have node : NodeMaker.plain.ofHeader { header with attributes := header.attributes.unsourced } =
      (NodeMaker.plain.ofHeader header).unsourced := by
    rw [Descent.ofHeader_plain, Descent.ofHeader_plain]
    exact (Node.unsourced_tag _ _ _ [] _).symm
  have empty : assembly.unsourced.stack.isEmpty = assembly.stack.isEmpty := List.isEmpty_map
  unfold openTag
  dsimp only
  rw [node, empty, ← unsourced_attach]
  split
  · rfl
  · rfl

theorem unsourced_closeTag (name : String) (assembly : Assembly) :
    assembly.unsourced.closeTag name =
      ((assembly.closeTag name).1, (assembly.closeTag name).2.unsourced) := by
  unfold closeTag
  rw [currentName?_unsourced]
  split
  · rfl
  · obtain ⟨stack, root⟩ := assembly
    cases stack with
    | nil => rfl
    | cons node outer =>
      simp only [unsourced, List.map_cons, List.isEmpty_map]
      exact congrArg _ (unsourced_attach node ⟨outer, root⟩).symm

theorem unsourced_addText (segments : List Segment) (assembly : Assembly) :
    (assembly.addText .plain segments).unsourced = assembly.unsourced.addText .plain segments := by
  unfold addText
  split
  · rfl
  · rw [unsourced_attach]
    exact congrArg assembly.unsourced.attach (Node.unsourced_text segments)

theorem unsourced_addEmbedded (source : String) (pieces : List Piece) (assembly : Assembly) :
    (assembly.addEmbedded .plain source pieces).unsourced =
      assembly.unsourced.addEmbedded .plain "" (pieces.map Piece.unsourced) := by
  rw [addEmbedded, unsourced_attach, addEmbedded]
  exact congrArg assembly.unsourced.attach (Node.unsourced_embedded source pieces)

theorem unsourced_finish (assembly : Assembly) :
    assembly.finish.map Node.unsourced = assembly.unsourced.finish := by
  obtain ⟨stack, root⟩ := assembly
  have closed (outer : List Node) (node : Node) :
      (outer.foldl (fun child parent => parent.pushChild child) node).unsourced =
        (outer.map Node.unsourced).foldl (fun child parent => parent.pushChild child)
          node.unsourced := by
    induction outer generalizing node with
    | nil => rfl
    | cons parent outer ih => rw [List.foldl_cons, ih, Node.unsourced_pushChild]; rfl
  cases stack with
  | nil => rfl
  | cons node outer =>
    cases root with
    | none => exact congrArg some (closed outer node)
    | some root => rfl

end Assembly

/-! ## Code that is cut alike -/

namespace Fragment

/-- Two codes that hold markup and are cut into the same pieces, their sources apart. -/
structure Reader.CutsAlike (reader : Reader) (code code' : String) : Prop where
  holds : Host.containsMarkup code.toList = true
  holds' : Host.containsMarkup code'.toList = true
  pieces : ∃ pieces pieces', reader.cut code = .ok pieces ∧ reader.cut code' = .ok pieces' ∧
    pieces'.map Piece.unsourced = pieces.map Piece.unsourced

/-- Two parts of content, or two values, that are the same or codes that are cut alike. -/
def Reader.Alike {α : Type} (reader : Reader) (wrap : String → α) (part part' : α) : Prop :=
  part' = part ∨ ∃ code code', part = wrap code ∧ part' = wrap code' ∧ reader.CutsAlike code code'

namespace Reader.Alike

variable {α : Type} {reader : Reader} {wrap : String → α} {part part' : α}

theorem refl (wrap : String → α) (part : α) : reader.Alike wrap part part := .inl rfl

/-- Where there is no markup, only the same is alike. -/
theorem eq_of_bare (alike : reader.Alike wrap part part')
    (bare : ∀ code, part = wrap code → ¬ Host.containsMarkup code.toList = true) : part' = part := by
  refine alike.resolve_right ?_
  rintro ⟨code, _, code_eq, -, cuts⟩
  exact bare code code_eq cuts.holds

/-- What is alike to code that holds markup is such code as well. -/
theorem exists_cut {code : String} {pieces : List Piece} (alike : reader.Alike wrap (wrap code) part')
    (injective : Function.Injective wrap) (holds : Host.containsMarkup code.toList = true)
    (cut : reader.cut code = .ok pieces) :
    ∃ code' pieces', part' = wrap code' ∧ Host.containsMarkup code'.toList = true ∧
      reader.cut code' = .ok pieces' ∧ pieces'.map Piece.unsourced = pieces.map Piece.unsourced := by
  obtain rfl | ⟨same, code', wrapped, rfl, cuts⟩ := alike
  · exact ⟨code, pieces, rfl, holds, cut, rfl⟩
  · obtain rfl := injective wrapped
    obtain ⟨first, pieces', cut', cut'', same⟩ := cuts.pieces
    obtain rfl := Except.ok.inj (cut.symm.trans cut')
    exact ⟨code', pieces', rfl, cuts.holds', cut'', same⟩

end Reader.Alike

section

variable {reader : Reader} (plain : reader.maker = .plain)

include plain

/-- Content that is alike is added alike. -/
theorem addSegments_alike {run segments segments' : List Segment}
    {assembly assembly' grown : Assembly}
    (alike : List.Forall₂ (reader.Alike .expression) segments segments')
    (same : assembly'.unsourced = assembly.unsourced)
    (h : addSegments reader run assembly segments = .ok grown) :
    ∃ grown', addSegments reader run assembly' segments' = .ok grown' ∧
      grown'.unsourced = grown.unsourced := by
  fun_induction addSegments reader run assembly segments generalizing assembly' segments' with
  | case1 run assembly =>
    cases alike
    cases h
    refine ⟨_, rfl, ?_⟩
    rw [plain, Assembly.unsourced_addText, same, Assembly.unsourced_addText]
  | case2 run assembly code rest holds ih =>
    cases alike with
    | cons head tail =>
      obtain ⟨pieces, cut, h⟩ := bind_eq_ok.1 h
      obtain ⟨code', pieces', rfl, holds', cut', pieces_eq⟩ :=
        head.exists_cut (fun _ _ => Segment.expression.inj) holds cut
      rw [addSegments, if_pos holds', cut', ok_bind]
      refine ih pieces tail ?_ h
      rw [plain, Assembly.unsourced_addEmbedded, Assembly.unsourced_addText, same, pieces_eq,
        Assembly.unsourced_addEmbedded, Assembly.unsourced_addText]
  | case3 run assembly code rest bare ih =>
    cases alike with
    | cons head tail =>
      obtain rfl := head.eq_of_bare fun other same => Segment.expression.inj same ▸ bare
      rw [addSegments, if_neg bare]
      exact ih tail same h
  | case4 run assembly segment rest other ih =>
    cases alike with
    | cons head tail =>
      obtain rfl := head.eq_of_bare fun code same => absurd same (other code)
      rw [addSegments.eq_3 _ _ _ _ _ other]
      exact ih tail same h

end

/-- Two lists of attributes with the same names, and values that are alike. -/
def Reader.AlikeAttributes (reader : Reader) : Attributes → Attributes → Prop :=
  List.Forall₂ fun entry entry' => entry'.1 = entry.1 ∧ reader.Alike .expression entry.2 entry'.2

namespace Reader.AlikeAttributes

variable {reader : Reader}

theorem refl (attributes : Attributes) : reader.AlikeAttributes attributes attributes :=
  List.forall₂_same.2 fun _ _ => ⟨rfl, .refl _ _⟩

/-- Setting an attribute to values that are alike. -/
theorem insert {attributes attributes' : Attributes}
    (alike : reader.AlikeAttributes attributes attributes') (name : String) {value value' : AttrValue}
    (values : reader.Alike .expression value value') :
    reader.AlikeAttributes (attributes.insert name value) (attributes'.insert name value') := by
  induction alike with
  | nil => exact .cons ⟨rfl, values⟩ .nil
  | @cons entry entry' rest rest' head tail ih =>
    obtain ⟨other, old⟩ := entry
    obtain ⟨other', old'⟩ := entry'
    obtain ⟨rfl, olds⟩ := head
    by_cases same : other' = name
    · simp only [Attributes.insert, if_pos same]
      exact .cons ⟨rfl, values⟩ tail
    · simp only [Attributes.insert, if_neg same]
      exact .cons ⟨rfl, olds⟩ ih

end Reader.AlikeAttributes

theorem nestValue_alike {reader : Reader} {value value' nested : AttrValue}
    (alike : reader.Alike .expression value value') (h : nestValue reader value = .ok nested) :
    ∃ nested', nestValue reader value' = .ok nested' ∧ nested'.unsourced = nested.unsourced := by
  cases value with
  | expression code =>
    by_cases holds : Host.containsMarkup code.toList = true
    · rw [nestValue, if_pos holds] at h
      obtain ⟨pieces, cut, h⟩ := bind_eq_ok.1 h
      cases h
      obtain ⟨code', pieces', rfl, holds', cut', pieces_eq⟩ :=
        alike.exists_cut (fun _ _ => AttrValue.expression.inj) holds cut
      refine ⟨.nested code' pieces', ?_, ?_⟩
      · rw [nestValue, if_pos holds', cut', ok_bind]
      · rw [AttrValue.unsourced, AttrValue.unsourced, pieces_eq]
    · obtain rfl := alike.eq_of_bare fun other same => AttrValue.expression.inj same ▸ holds
      exact ⟨nested, h, rfl⟩
  | string | flag | nested =>
    obtain rfl := alike.eq_of_bare fun code same => by contradiction
    exact ⟨_, h, rfl⟩

theorem nestAttributes_cons (reader : Reader) (name : String) (given : AttrValue) (rest : Attributes) :
    nestAttributes reader ((name, given) :: rest) = nestValue reader given >>= fun value =>
      nestAttributes reader rest >>= fun following => .ok ((name, value) :: following) := by
  rw [nestAttributes, List.mapM_cons]
  dsimp only
  cases nestValue reader given with
  | error fault => rfl
  | ok value => rfl

theorem nestAttributes_alike {reader : Reader} {attributes attributes' nested : Attributes}
    (alike : reader.AlikeAttributes attributes attributes')
    (h : nestAttributes reader attributes = .ok nested) :
    ∃ nested', nestAttributes reader attributes' = .ok nested' ∧
      nested'.unsourced = nested.unsourced := by
  induction alike generalizing nested with
  | nil => exact ⟨nested, h, rfl⟩
  | @cons entry entry' rest rest' head tail ih =>
    obtain ⟨name, given⟩ := entry
    obtain ⟨name', given'⟩ := entry'
    obtain ⟨rfl, values⟩ := head
    rw [nestAttributes_cons] at h
    obtain ⟨value, taken, h⟩ := bind_eq_ok.1 h
    obtain ⟨following, others, h⟩ := bind_eq_ok.1 h
    cases h
    obtain ⟨value', taken', value_eq⟩ := nestValue_alike values taken
    obtain ⟨following', others', following_eq⟩ := ih others
    refine ⟨(name', value') :: following', ?_, ?_⟩
    · rw [nestAttributes_cons, taken', ok_bind, others', ok_bind]
    · simp only [Attributes.unsourced, List.map_cons] at following_eq ⊢
      rw [value_eq, following_eq]

end Fragment

/-! ## Headers -/

namespace Header

open Fragment (Reader)

/-- The machine takes the rest of a header with it, whatever the attributes before are; they stay
alike. -/
theorem run_alike {reader : Reader} {mode : Mode} {start : Position} {scan : Scan} {header : Header}
    {stop : Cursor} {attributes : Attributes}
    (alike : reader.AlikeAttributes scan.attributes attributes)
    (h : run mode start scan = .ok (header, stop)) :
    ∃ attributes', run mode start { scan with attributes := attributes } =
        .ok ({ header with attributes := attributes' }, stop) ∧
      reader.AlikeAttributes header.attributes attributes' := by
  fun_induction run mode start scan generalizing attributes with
  | case1 scan done =>
    cases h
    have done' : ({ scan with attributes := attributes } : Scan).phase = .done := done
    exact ⟨attributes, run_done done', alike⟩
  | case2 => contradiction
  | case3 scan unfinished ended lenient =>
    cases h
    subst lenient
    have unfinished' : ({ scan with attributes := attributes } : Scan).phase ≠ .done := unfinished
    refine ⟨cutOff { scan with attributes := attributes }, run_nil unfinished' ended, ?_⟩
    dsimp only [finish]
    unfold cutOff
    dsimp only
    cases scan.phase with
    | name | afterName | quoted | unquoted => exact alike.insert _ (.refl _ _)
    | tagName | beforeName | beforeValue | slash | done => exact alike
  | case4 => contradiction
  | case5 scan unfinished c rest more next taken ih =>
    have unfinished' : ({ scan with attributes := attributes } : Scan).phase ≠ .done := unfinished
    rw [run_cons unfinished' more]
    obtain ⟨course, entry, stops, settled, -, again⟩ :=
      step_elsewhere attributes (fun _ => rfl) taken
    have taken' : step mode { scan with attributes := attributes } c =
        .ok { next with attributes := settle entry attributes } := by
      rw [← stops] at again
      exact again fun _ => ⟨rfl, rfl⟩
    rw [taken', ok_bind]
    refine ih ?_ h
    rw [settled]
    cases entry with
    | none => exact alike
    | some entry => exact alike.insert entry.1 (.refl _ _)

end Header

/-! ## Content -/

namespace Content

open Fragment (Reader)

/-- The rest of content is read alike after segments that are alike. -/
theorem readFrom_alike {reader : Reader} {mode : Mode} {pending : List Char}
    {segments segments' result : List Segment} {cur stop : Cursor}
    (alike : List.Forall₂ (reader.Alike .expression) segments segments')
    (h : readFrom mode pending segments cur = .ok (result, stop)) :
    ∃ result', readFrom mode pending segments' cur = .ok (result', stop) ∧
      List.Forall₂ (reader.Alike .expression) result result' := by
  have flushed {pending : List Char} {segments segments' : List Segment}
      (alike : List.Forall₂ (reader.Alike .expression) segments segments') :
      List.Forall₂ (reader.Alike .expression) (flush pending segments) (flush pending segments') := by
    unfold flush
    split
    · exact alike
    · split
      · exact .cons (.refl _ _) alike
      · exact alike
  fun_induction readFrom mode pending segments cur generalizing segments' with
  | case1 pending segments cur begins =>
    cases h
    refine ⟨(flush pending segments').reverse, ?_, List.forall₂_reverse_iff.2 (flushed alike)⟩
    rw [readFrom_eq, begins]
  | case2 pending segments cur begins ih =>
    rw [readFrom_eq, begins]
    exact ih alike h
  | case3 pending segments cur begins ih =>
    rw [readFrom_eq, begins]
    exact ih alike h
  | case4 => contradiction
  | case5 pending segments cur begins group closed before comment =>
    rename_i ih
    rw [readFrom_eq, begins]
    dsimp only
    rw [if_neg closed, if_pos comment]
    exact ih (flushed alike) h
  | case6 pending segments cur begins group closed before comment =>
    rename_i ih
    rw [readFrom_eq, begins]
    dsimp only
    rw [if_neg closed, if_neg comment]
    exact ih (.cons (.refl _ _) (flushed alike)) h
  | case7 pending segments cur begins ih =>
    rw [readFrom_eq, begins]
    exact ih alike h
  | case8 pending segments cur begins comment =>
    rename_i ih
    rw [readFrom_eq, begins]
    exact ih alike h
  | case9 pending segments cur c begins ih =>
    rw [readFrom_eq, begins]
    exact ih alike h

end Content

/-! ## Tags -/

namespace Fragment

variable {reader : Reader} {assembly assembly' : Assembly} {cur : Cursor}

section

variable (same : assembly'.unsourced = assembly.unsourced)

include same

theorem openTag_alike (header : Header) {attributes : Attributes}
    (values : attributes.unsourced = header.attributes.unsourced) :
    (assembly'.openTag .plain { header with attributes := attributes }).1 =
        (assembly.openTag .plain header).1 ∧
      (assembly'.openTag .plain { header with attributes := attributes }).2.unsourced =
        (assembly.openTag .plain header).2.unsourced := by
  have first := Assembly.unsourced_openTag header assembly
  have second := Assembly.unsourced_openTag { header with attributes := attributes } assembly'
  dsimp only at second
  rw [same, values, first] at second
  exact ⟨(congrArg Prod.fst second).symm, (congrArg Prod.snd second).symm⟩

theorem closeTag_alike (name : String) :
    (assembly'.closeTag name).1 = (assembly.closeTag name).1 ∧
      (assembly'.closeTag name).2.unsourced = (assembly.closeTag name).2.unsourced := by
  have first := Assembly.unsourced_closeTag name assembly
  have second := Assembly.unsourced_closeTag name assembly'
  rw [same, first] at second
  exact ⟨(congrArg Prod.fst second).symm, (congrArg Prod.snd second).symm⟩

theorem currentName?_alike : assembly'.currentName? = assembly.currentName? := by
  rw [← Assembly.currentName?_unsourced, same, Assembly.currentName?_unsourced]

end

/-- An opening tag whose header is alike. -/
theorem readOpening_alike (plain : reader.maker = .plain) {cur cur' stop stop' : Cursor} {turn : Turn}
    {header : Header} {attributes : Attributes} (same : assembly'.unsourced = assembly.unsourced)
    (h : readOpening reader assembly cur = .ok turn)
    (read : Header.read reader.mode cur.next = .ok (header, stop))
    (read' : Header.read reader.mode cur'.next = .ok ({ header with attributes := attributes }, stop'))
    (values : reader.AlikeAttributes header.attributes attributes) :
    ∃ grown, readOpening reader assembly' cur' = .ok ⟨turn.goesOn, grown, stop'⟩ ∧
      grown.unsourced = turn.assembly.unsourced ∧ turn.cursor = stop := by
  rw [readOpening_eq, read, ok_bind] at h
  obtain ⟨nested, taken, h⟩ := bind_eq_ok.1 h
  cases h
  obtain ⟨nested', taken', nested_eq⟩ := nestAttributes_alike values taken
  obtain ⟨outcome, grown⟩ := openTag_alike same { header with attributes := nested } nested_eq
  rw [readOpening_eq, read', ok_bind]
  dsimp only at outcome grown ⊢
  rw [taken', ok_bind, plain, outcome]
  exact ⟨_, rfl, grown, rfl⟩

theorem readClosing_alike {turn : Turn} (same : assembly'.unsourced = assembly.unsourced)
    (h : readClosing reader assembly cur = .ok turn) :
    ∃ grown, readClosing reader assembly' cur = .ok { turn with assembly := grown } ∧
      grown.unsourced = turn.assembly.unsourced := by
  unfold readClosing at h ⊢
  dsimp only at h ⊢
  obtain ⟨closed, grown⟩ := closeTag_alike same
    (String.ofList ((cur.advance 2).skipSpace.rest.takeWhile fun c => c != '>' && !Unicode.isSpace c))
  rw [closed, currentName?_alike same]
  cases mode : reader.mode with
  | lenient =>
    simp only [mode] at h ⊢
    cases h
    exact ⟨_, rfl, grown⟩
  | strict =>
    simp only [mode] at h ⊢
    split at h
    · next ended =>
      rw [if_pos ended]
      split at h
      · contradiction
      · cases h
        exact ⟨_, rfl, grown⟩
    · contradiction

theorem readTag_alike (plain : reader.maker = .plain) {turn : Turn}
    (same : assembly'.unsourced = assembly.unsourced) (h : readTag reader assembly cur = .ok turn) :
    ∃ grown, readTag reader assembly' cur = .ok { turn with assembly := grown } ∧
      grown.unsourced = turn.assembly.unsourced := by
  unfold readTag at h ⊢
  by_cases slash : cur.peekAt? 1 = some '/'
  · rw [if_pos slash] at h ⊢
    exact readClosing_alike same h
  · rw [if_neg slash] at h ⊢
    cases read : Header.read reader.mode cur.next with
    | error fault =>
      rw [readOpening_eq, read] at h
      contradiction
    | ok header =>
      obtain ⟨grown, again, alike, stop⟩ := readOpening_alike plain same h read read (.refl _)
      exact ⟨grown, by rw [again, stop], alike⟩

/-- Reading on from trees that are alike ends in the same place, with such trees. -/
theorem readOn_alike (plain : reader.maker = .plain) {turn : Turn} {result : Assembly} {stop : Cursor}
    (same : assembly'.unsourced = turn.assembly.unsourced)
    (h : readOn reader turn = .ok (result, stop)) :
    ∃ result', readOn reader { turn with assembly := assembly' } = .ok (result', stop) ∧
      result'.unsourced = result.unsourced := by
  fun_induction readOn reader turn generalizing assembly' with
  | case1 assembly cur =>
    cases h
    exact ⟨assembly', readOn_false _ _ _, same⟩
  | case2 => contradiction
  | case3 => contradiction
  | case4 assembly cur segments last content grown added ended =>
    cases h
    obtain ⟨grown', added', alike⟩ :=
      addSegments_alike plain (List.forall₂_same.2 fun _ _ => .refl _ _) same added
    refine ⟨grown', ?_, alike⟩
    rw [readOn_true, content, ok_bind]
    dsimp only
    rw [added', ok_bind, if_pos ended]
  | case5 => contradiction
  | case6 assembly cur segments last content grown added more turn taken ih =>
    obtain ⟨grown', added', alike⟩ :=
      addSegments_alike plain (List.forall₂_same.2 fun _ _ => .refl _ _) same added
    obtain ⟨opened, taken', alike⟩ := readTag_alike plain alike taken
    rw [readOn_true, content, ok_bind]
    dsimp only
    rw [added', ok_bind, if_neg more, taken', ok_bind]
    exact ih alike h

end Fragment

end InlineMarkup
