import InlineMarkup.Proofs.Equations

/-!
# InlineMarkup.Proofs.Descent

Fragments by recursive descent.  `element` reads an opening tag and, unless it
closes itself, calls `content` for everything up to its closing tag; `content`
calls `element` for each tag inside.  Headers and texts are read as usual; there
is no stack and no state but the cursor.  An element is closed by

* the first closing tag that does not name a void element, which in strict mode
  must have its name;
* the end of the text, which in strict mode is a fault of the innermost element.

The main statement is `readRoot_eq_root`: the loop over tags with its stack of
open nodes reads the same tree and stops at the same place, or fails with the
same fault.  What ties the two together is the stack while `content` runs: one
`Frame` for each call of `element` that has not returned.
-/

namespace InlineMarkup.Descent

open Outcome (bind_eq_ok ok_bind error_bind)
open Fragment (readOn readOpening readClosing readTag conclude addSegments nestAttributes)
open Unicode (isSpace)

/-! ## The readers -/

/-- The places with less left than a cursor. -/
abbrev Beyond (cur : Cursor) := { after : Cursor // after.rest.length < cur.rest.length }

/-- The places with no more left than a cursor. -/
abbrev Onward (cur : Cursor) := { after : Cursor // after.rest.length ≤ cur.rest.length }

/-- A reading with a bound on where it ends. -/
def bounded {α : Type} {P : Cursor → Prop} (read : Except Error (α × Cursor))
    (bound : ∀ found after, read = .ok (found, after) → P after) :
    Except Error (α × { after : Cursor // P after }) :=
  match read, bound with
  | .error fault, _ => .error fault
  | .ok (found, after), bound => .ok (found, ⟨after, bound found after rfl⟩)

/-- The header after the `<` at the cursor. -/
def header (mode : Mode) (cur : Cursor) (more : cur.rest ≠ []) :
    Except Error (Header × Beyond cur) :=
  bounded (Header.read mode cur.next) fun _ _ taken =>
    Nat.lt_of_le_of_lt (Header.reaches_read taken).length_le (Cursor.length_next_lt more)

/-- The text and expressions at the cursor. -/
def text (mode : Mode) (cur : Cursor) : Except Error (List Segment × Onward cur) :=
  bounded (Content.read mode cur) fun _ _ taken => (Content.reaches_read taken).length_le

/-- A closing tag. -/
structure ClosingTag (cur : Cursor) where
  /-- The name it closes. -/
  name : String
  /-- Whether its `>` was there. -/
  ended : Bool
  /-- The cursor after it. -/
  after : Beyond cur

/-- The closing tag whose `</` is at the cursor: white space may stand around
its name, and whatever stands between the name and the `>` is passed over. -/
def closing (cur : Cursor) (more : cur.rest ≠ []) : ClosingTag cur :=
  let start := (cur.advance 2).skipSpace
  let word := start.rest.takeWhile fun c => c != '>' && !isSpace c
  let ending := (start.advance word.length).readPast '>' none
  { name := String.ofList word
    ended := ending.ended
    after := ⟨ending.cursor, by
      have ahead : cur.next.Reaches (cur.advance 2) := ⟨1, by simp [Cursor.next]⟩
      have reached : cur.next.Reaches ending.cursor :=
        ((ahead.trans (Cursor.reaches_skipSpace _)).trans (.advance word.length _)).trans
          (Cursor.reaches_read _ _ _)
      exact Nat.lt_of_le_of_lt reached.length_le (Cursor.length_next_lt more)⟩ }

/-- The node of a run of text, unless it is empty. -/
def textNodes (run : List Segment) : List Node := if run.isEmpty then [] else [.text run]

/-- The nodes of a text read: code that holds markup is cut into pieces and
stands for itself, and the segments between such code form texts. -/
def textAndCode (cut : String → Except Error (List Piece)) (run : List Segment) :
    List Segment → Except Error (List Node)
  | [] => .ok (textNodes run)
  | .expression code :: rest =>
    if Host.containsMarkup code.toList then do
      let pieces ← cut code
      let following ← textAndCode cut [] rest
      .ok (textNodes run ++ .embedded code pieces :: following)
    else textAndCode cut (run ++ [.expression code]) rest
  | segment :: rest => textAndCode cut (run ++ [segment]) rest

/-- The kind of tag that a name stands for. -/
def kindOf (name : String) : TagKind := if Name.isComponent name then .component else .element

mutual

/-- The element whose `<` is at the cursor. -/
def element (mode : Mode) (cut : String → Except Error (List Piece)) (cur : Cursor)
    (more : cur.rest ≠ []) : Except Error (Node × Beyond cur) := do
  let (header, ⟨after, shorter⟩) ← header mode cur more
  let attributes ← nestAttributes ⟨.plain, mode, cut⟩ header.attributes
  if header.selfClosing then
    .ok (.tag (kindOf header.name) header.name attributes [] true, ⟨after, shorter⟩)
  else
    let (children, ⟨stop, _⟩) ← content mode cut header.name after
    .ok (.tag (kindOf header.name) header.name attributes children false, ⟨stop, by omega⟩)
termination_by 2 * cur.rest.length

/-- The children of the element called `name`, up to its closing tag. -/
def content (mode : Mode) (cut : String → Except Error (List Piece)) (name : String)
    (cur : Cursor) : Except Error (List Node × Onward cur) := do
  let (segments, ⟨after, _⟩) ← text mode cur
  let nodes ← textAndCode cut [] segments
  if more : after.rest = [] then
    match mode with
    | .strict => .error (.unclosedElement name after.position)
    | .lenient => .ok (nodes, ⟨after, by omega⟩)
  else if after.peekAt? 1 = some '/' then
    let ⟨closed, ended, ⟨next, _⟩⟩ := closing after more
    if mode = .strict ∧ ended = false then
      .error (.unterminatedTag ("/" ++ closed) after.position)
    else if Name.isVoid closed then
      let (following, ⟨stop, _⟩) ← content mode cut name next
      .ok (nodes ++ following, ⟨stop, by omega⟩)
    else if mode = .strict ∧ closed ≠ name then
      .error (.mismatchedClosingTag name closed after.position)
    else .ok (nodes, ⟨next, by omega⟩)
  else
    let (child, ⟨next, _⟩) ← element mode cut after more
    let (following, ⟨stop, _⟩) ← content mode cut name next
    .ok (nodes ++ child :: following, ⟨stop, by omega⟩)
termination_by 2 * cur.rest.length + 1

end

/-! ## The readers without the bounds -/

/-- A reading without the bound on where it ends. -/
def plain {α : Type} {P : Cursor → Prop} (read : Except Error (α × { after : Cursor // P after })) :
    Except Error (α × Cursor) :=
  read >>= fun found => .ok (found.1, found.2.1)

theorem plain_bounded {α : Type} {P : Cursor → Prop} (read : Except Error (α × Cursor))
    (bound : ∀ found after, read = .ok (found, after) → P after) :
    plain (bounded read bound) = read := by
  cases read with
  | error fault => rfl
  | ok found => rfl

theorem plain_header (mode : Mode) (cur : Cursor) (more : cur.rest ≠ []) :
    plain (header mode cur more) = Header.read mode cur.next :=
  plain_bounded _ _

theorem plain_text (mode : Mode) (cur : Cursor) :
    plain (text mode cur) = Content.read mode cur :=
  plain_bounded _ _

/-- The bound still holds. -/
theorem bound_of_plain {α : Type} {P : Cursor → Prop}
    {read : Except Error (α × { after : Cursor // P after })} {found : α} {after : Cursor}
    (h : plain read = .ok (found, after)) : P after := by
  obtain ⟨kept, -, same⟩ := bind_eq_ok.1 h
  rw [← (Prod.mk.inj (Except.ok.inj same)).2]
  exact kept.2.2

/-- A reading in two steps, where the second step does not look at the bound. -/
theorem plain_bind {α β : Type} {P Q : Cursor → Prop}
    (first : Except Error (α × { after : Cursor // P after }))
    {second : α × { after : Cursor // P after } → Except Error (β × { after : Cursor // Q after })}
    {second' : α × Cursor → Except Error (β × Cursor)}
    (same : ∀ found after bound, plain (second (found, ⟨after, bound⟩)) = second' (found, after)) :
    plain (first >>= second) = plain first >>= second' := by
  cases first with
  | error fault => rfl
  | ok found => exact same found.1 found.2.1 found.2.2

theorem plain_element (mode : Mode) (cut : String → Except Error (List Piece)) (cur : Cursor)
    (more : cur.rest ≠ []) :
    plain (element mode cut cur more) =
      (Header.read mode cur.next >>= fun read =>
        nestAttributes ⟨.plain, mode, cut⟩ read.1.attributes >>= fun attributes =>
          if read.1.selfClosing then
            .ok (.tag (kindOf read.1.name) read.1.name attributes [] true, read.2)
          else plain (content mode cut read.1.name read.2) >>= fun inside =>
            .ok (.tag (kindOf read.1.name) read.1.name attributes inside.1 false, inside.2)) := by
  rw [element, ← plain_header mode cur more]
  refine plain_bind _ fun header after shorter => ?_
  dsimp only
  cases nestAttributes ⟨.plain, mode, cut⟩ header.attributes with
  | error fault => rfl
  | ok attributes =>
    simp only [ok_bind]
    split
    · rfl
    · exact plain_bind _ fun children stop bound => rfl

theorem plain_content (mode : Mode) (cut : String → Except Error (List Piece)) (name : String)
    (cur : Cursor) :
    plain (content mode cut name cur) =
      (Content.read mode cur >>= fun read =>
        textAndCode cut [] read.1 >>= fun nodes =>
          if more : read.2.rest = [] then
            match mode with
            | .strict => .error (.unclosedElement name read.2.position)
            | .lenient => .ok (nodes, read.2)
          else if read.2.peekAt? 1 = some '/' then
            let tag := closing read.2 more
            if mode = .strict ∧ tag.ended = false then
              .error (.unterminatedTag ("/" ++ tag.name) read.2.position)
            else if Name.isVoid tag.name then
              plain (content mode cut name tag.after.1) >>= fun inside =>
                .ok (nodes ++ inside.1, inside.2)
            else if mode = .strict ∧ tag.name ≠ name then
              .error (.mismatchedClosingTag name tag.name read.2.position)
            else .ok (nodes, tag.after.1)
          else plain (element mode cut read.2 more) >>= fun child =>
            plain (content mode cut name child.2) >>= fun inside =>
              .ok (nodes ++ child.1 :: inside.1, inside.2)) := by
  rw [content, ← plain_text mode cur]
  refine plain_bind _ fun segments after onward => ?_
  dsimp only
  cases textAndCode cut [] segments with
  | error fault => rfl
  | ok nodes =>
    simp only [ok_bind]
    by_cases more : after.rest = []
    · rw [dif_pos more, dif_pos more]
      cases mode with
      | strict => rfl
      | lenient => rfl
    · rw [dif_neg more, dif_neg more]
      split
      · split
        · rfl
        split
        · exact plain_bind _ fun following stop bound => rfl
        split
        · rfl
        · rfl
      · exact plain_bind _ fun child next bound => plain_bind _ fun following stop bound => rfl

/-! ## Reading on -/

section

variable {mode : Mode} {cut : String → Except Error (List Piece)} {cur after : Cursor}

theorem reaches_closing (more : cur.rest ≠ []) : cur.Reaches (closing cur more).after.1 := by
  have two : cur.Reaches (cur.advance 2).skipSpace :=
    (Cursor.Reaches.advance 2 cur).trans (Cursor.reaches_skipSpace _)
  exact (two.trans (.advance _ _)).trans (Cursor.reaches_read _ _ _)

/-- An element is read forwards, if its content is. -/
theorem reaches_element_of_content {node : Node} (more : cur.rest ≠ [])
    (ih : ∀ name later found stop, later.rest.length < cur.rest.length →
      plain (content mode cut name later) = .ok (found, stop) → later.Reaches stop)
    (h : plain (element mode cut cur more) = .ok (node, after)) : cur.next.Reaches after := by
  rw [plain_element] at h
  obtain ⟨⟨header, inner⟩, taken, h⟩ := bind_eq_ok.1 h
  obtain ⟨attributes, -, h⟩ := bind_eq_ok.1 h
  have onward := Header.reaches_read taken
  split at h
  · cases h
    exact onward
  · obtain ⟨⟨children, stop⟩, inside, h⟩ := bind_eq_ok.1 h
    cases h
    have shorter := Nat.lt_of_le_of_lt onward.length_le (Cursor.length_next_lt more)
    exact onward.trans (ih header.name inner children stop shorter inside)

/-- Content is read forwards, by induction on the characters left. -/
theorem reaches_content {name : String} {nodes : List Node}
    (h : plain (content mode cut name cur) = .ok (nodes, after)) : cur.Reaches after := by
  induction size : cur.rest.length using Nat.strongRecOn generalizing name cur nodes after with
  | ind n ih =>
    subst size
    rw [plain_content] at h
    obtain ⟨⟨segments, stop⟩, taken, h⟩ := bind_eq_ok.1 h
    obtain ⟨texts, -, h⟩ := bind_eq_ok.1 h
    have reached := Content.reaches_read taken
    have size := reached.length_le
    dsimp only at h
    split at h
    · cases mode with
      | strict => contradiction
      | lenient => cases h; exact reached
    next more =>
    split at h
    · have shorter := (closing stop more).after.2
      have closed := reached.trans (reaches_closing more)
      split at h
      · contradiction
      split at h
      · obtain ⟨⟨following, last⟩, inside, h⟩ := bind_eq_ok.1 h
        cases h
        exact closed.trans (ih _ (by omega) inside rfl)
      split at h
      · contradiction
      · cases h
        exact closed
    · obtain ⟨⟨child, next⟩, element, h⟩ := bind_eq_ok.1 h
      obtain ⟨⟨following, last⟩, inside, h⟩ := bind_eq_ok.1 h
      cases h
      have shorter := bound_of_plain element
      have onward := reaches_element_of_content more
        (fun name later found stop shorter read => ih _ (by omega) read rfl) element
      exact (reached.trans ((Cursor.reaches_next _).trans onward)).trans
        (ih _ (by omega) inside rfl)

theorem reaches_element {node : Node} (more : cur.rest ≠ [])
    (h : plain (element mode cut cur more) = .ok (node, after)) : cur.next.Reaches after :=
  reaches_element_of_content more (fun _ _ _ _ _ => reaches_content) h

end

/-! ## Open elements -/

/-- An element that `content` is being read for. -/
structure Frame where
  /-- Its name. -/
  name : String
  /-- Its attributes. -/
  attributes : Attributes
  /-- The children read so far. -/
  children : List Node
  /-- Void elements close themselves and are never open. -/
  notVoid : Name.isVoid name = false

namespace Frame

/-- The element as far as it was read. -/
def node (frame : Frame) : Node :=
  .tag (kindOf frame.name) frame.name frame.attributes frame.children false

/-- The element with further children. -/
def add (frame : Frame) (nodes : List Node) : Frame :=
  { frame with children := frame.children ++ nodes }

@[simp] theorem name_add (frame : Frame) (nodes : List Node) : (frame.add nodes).name = frame.name :=
  rfl

@[simp] theorem add_nil (frame : Frame) : frame.add [] = frame := by
  simp [add]

@[simp] theorem add_add (frame : Frame) (first second : List Node) :
    (frame.add first).add second = frame.add (first ++ second) := by
  simp [add]

end Frame

/-- The assembly while elements are open, the innermost first: it has no root
yet, and every node on its stack can take children. -/
def stack (frames : List Frame) : Assembly := ⟨frames.map Frame.node, none⟩

theorem stack_nil : stack [] = .empty := rfl

theorem currentName?_stack (frame : Frame) (outer : List Frame) :
    (stack (frame :: outer)).currentName? = some frame.name := rfl

theorem attach_stack (frame : Frame) (outer : List Frame) (child : Node) :
    (stack (frame :: outer)).attach child = stack (frame.add [child] :: outer) := rfl

/-- Closing the innermost element hands it to the one around it. -/
theorem finish_stack (frame parent : Frame) (outer : List Frame) :
    (stack (frame :: parent :: outer)).finish = (stack (parent.add [frame.node] :: outer)).finish :=
  rfl

theorem addText_stack (frame : Frame) (outer : List Frame) (run : List Segment) :
    (stack (frame :: outer)).addText .plain run = stack (frame.add (textNodes run) :: outer) := by
  unfold Assembly.addText textNodes
  split
  · rw [Frame.add_nil]
  · exact attach_stack frame outer (.text run)

section

variable (mode : Mode) (cut : String → Except Error (List Piece))

/-- Content goes to the innermost element. -/
theorem addSegments_stack (frame : Frame) (outer : List Frame) (run segments : List Segment) :
    addSegments ⟨.plain, mode, cut⟩ run (stack (frame :: outer)) segments =
      (textAndCode cut run.reverse segments >>= fun nodes =>
        .ok (stack (frame.add nodes :: outer))) := by
  induction segments generalizing frame run with
  | nil =>
    simp only [addSegments, textAndCode, ok_bind]
    rw [addText_stack]
  | cons segment rest ih =>
    cases segment with
    | literal text =>
      simp only [addSegments, textAndCode]
      rw [ih, List.reverse_cons]
    | expression code =>
      simp only [addSegments, textAndCode]
      split
      · cases cut code with
        | error fault => rfl
        | ok pieces =>
          simp only [ok_bind, Assembly.addEmbedded]
          rw [addText_stack, attach_stack, ih, List.reverse_nil]
          cases textAndCode cut [] rest with
          | error fault => rfl
          | ok following =>
            simp only [ok_bind, Frame.add_add, NodeMaker.plain]
            rw [List.append_assoc, List.singleton_append]
      · rw [ih, List.reverse_cons]

end

/-! ## Tags on the stack -/

theorem ofHeader_plain (header : Header) :
    NodeMaker.plain.ofHeader header =
      .tag (kindOf header.name) header.name header.attributes [] header.selfClosing := by
  unfold NodeMaker.ofHeader Header.isComponent kindOf
  split
  · rfl
  · rfl

section

variable (name : String) (attributes : Attributes) (terminated : Bool)

/-- A tag that closes itself is a child of the innermost element. -/
theorem openTag_leaf (frame : Frame) (outer : List Frame) :
    (stack (frame :: outer)).openTag .plain ⟨name, attributes, true, terminated⟩ =
      (.leaf, stack (frame.add [.tag (kindOf name) name attributes [] true] :: outer)) := by
  unfold Assembly.openTag
  rw [ofHeader_plain]
  rfl

/-- A tag that closes itself where nothing is open is the root. -/
theorem openTag_root :
    (stack []).openTag .plain ⟨name, attributes, true, terminated⟩ =
      (.root, ⟨[], some (.tag (kindOf name) name attributes [] true)⟩) := by
  unfold Assembly.openTag
  rw [ofHeader_plain]
  rfl

/-- Any other tag becomes the innermost element. -/
theorem openTag_frame (notVoid : Name.isVoid name = false) (frames : List Frame) :
    (stack frames).openTag .plain ⟨name, attributes, false, terminated⟩ =
      (.opened, stack (⟨name, attributes, [], notVoid⟩ :: frames)) := by
  unfold Assembly.openTag
  rw [ofHeader_plain]
  rfl

end

theorem closeTag_void {name : String} (void : Name.isVoid name = true) (frame : Frame)
    (outer : List Frame) :
    (stack (frame :: outer)).closeTag name = (.ignoredVoid, stack (frame :: outer)) := by
  have other : (stack (frame :: outer)).currentName? ≠ some name := by
    rw [currentName?_stack]
    intro same
    have := frame.notVoid
    rw [Option.some.inj same, void] at this
    contradiction
  unfold Assembly.closeTag
  rw [if_pos ⟨void, other⟩]

theorem closeTag_root {name : String} (notVoid : Name.isVoid name = false) (frame : Frame) :
    (stack [frame]).closeTag name = (.root, ⟨[], some frame.node⟩) := by
  unfold Assembly.closeTag
  rw [if_neg (by rw [notVoid]; simp)]
  rfl

theorem closeTag_inner {name : String} (notVoid : Name.isVoid name = false) (frame parent : Frame)
    (outer : List Frame) :
    (stack (frame :: parent :: outer)).closeTag name =
      (.inner, stack (parent.add [frame.node] :: outer)) := by
  unfold Assembly.closeTag
  rw [if_neg (by rw [notVoid]; simp)]
  rfl

/-- What is left of the stack when the innermost element is closed. -/
def closed (frame : Frame) (outer : List Frame) (after : Cursor) : Fragment.Turn :=
  match outer with
  | [] => ⟨false, ⟨[], some frame.node⟩, after⟩
  | parent :: outer => ⟨true, stack (parent.add [frame.node] :: outer), after⟩

section

variable (mode : Mode) (cut : String → Except Error (List Piece))

/-- What becomes of the stack at a closing tag that is not at fault. -/
theorem turn_closeTag (name : String) (frame : Frame) (outer : List Frame) (next : Cursor) :
    (⟨((stack (frame :: outer)).closeTag name).1 == .inner ||
        ((stack (frame :: outer)).closeTag name).1 == .ignoredVoid,
      ((stack (frame :: outer)).closeTag name).2, next⟩ : Fragment.Turn) =
      if Name.isVoid name then ⟨true, stack (frame :: outer), next⟩ else closed frame outer next := by
  by_cases void : Name.isVoid name = true
  · rw [if_pos void, closeTag_void void]
    rfl
  · have notVoid : Name.isVoid name = false := Bool.eq_false_iff.2 void
    rw [if_neg void]
    cases outer with
    | nil => rw [closeTag_root notVoid]; rfl
    | cons parent outer => rw [closeTag_inner notVoid]; rfl

/-- A closing tag, once its name and its end are read. -/
theorem readClosing_eq (assembly : Assembly) (cur : Cursor) (more : cur.rest ≠ []) :
    readClosing ⟨.plain, mode, cut⟩ assembly cur =
      let tag := closing cur more
      let turn : Fragment.Turn := ⟨(assembly.closeTag tag.name).1 == .inner ||
        (assembly.closeTag tag.name).1 == .ignoredVoid, (assembly.closeTag tag.name).2, tag.after.1⟩
      match mode with
      | .lenient => .ok turn
      | .strict =>
        if tag.ended then
          match Fragment.closingFault? tag.name cur.position assembly.currentName? with
          | some fault => .error fault
          | none => .ok turn
        else .error (.unterminatedTag ("/" ++ tag.name) cur.position) := rfl

/-- A closing tag closes the innermost element, unless it is at fault or names a
void element. -/
theorem readClosing_stack (frame : Frame) (outer : List Frame) (cur : Cursor)
    (more : cur.rest ≠ []) :
    readClosing ⟨.plain, mode, cut⟩ (stack (frame :: outer)) cur =
      let tag := closing cur more
      if mode = .strict ∧ tag.ended = false then
        .error (.unterminatedTag ("/" ++ tag.name) cur.position)
      else if Name.isVoid tag.name then .ok ⟨true, stack (frame :: outer), tag.after.1⟩
      else if mode = .strict ∧ tag.name ≠ frame.name then
        .error (.mismatchedClosingTag frame.name tag.name cur.position)
      else .ok (closed frame outer tag.after.1) := by
  rw [readClosing_eq mode cut _ cur more]
  generalize closing cur more = tag
  obtain ⟨name, ended, next, shorter⟩ := tag
  dsimp only
  rw [turn_closeTag, currentName?_stack]
  cases mode with
  | lenient =>
    simp only [reduceCtorEq, false_and, if_false]
    split
    · rfl
    · rfl
  | strict =>
    cases ended with
    | false => rfl
    | true =>
      simp only [Fragment.closingFault?, if_true, reduceCtorEq, and_false, if_false, true_and]
      by_cases void : Name.isVoid name = true
      · rw [if_pos void, if_pos void, if_neg (by rw [void]; simp)]
      · rw [if_neg void, if_neg void]
        by_cases other : name = frame.name
        · rw [if_neg (by simp [other]), if_neg (by simp [other])]
        · rw [if_pos ⟨Ne.symm other, by simpa using void⟩, if_pos other]

/-- At the end of the text lenient reading closes all elements, whatever is said
of the innermost one. -/
theorem readOn_closed_of_rest_nil (frame : Frame) (outer : List Frame) {after : Cursor}
    (ended : after.rest = []) :
    (readOn ⟨.plain, .lenient, cut⟩ (closed frame outer after) >>= conclude .lenient) =
      .ok ((stack (frame :: outer)).finish, after) := by
  unfold closed
  cases outer with
  | nil => rw [Fragment.readOn_false]; rfl
  | cons parent outer =>
    dsimp only
    rw [Fragment.readOn_of_rest_nil _ _ _ ended, ok_bind, finish_stack]
    rfl

/-- No void element is a component. -/
theorem isComponent_of_isVoid {name : String} (void : Name.isVoid name = true) :
    Name.isComponent name = false := by
  have elements : ∀ void ∈ Name.voidElements, Name.isComponent void = false := by decide +kernel
  exact elements name (by simpa [Name.isVoid] using void)

theorem notVoid_of_read {cur after : Cursor} {header : Header}
    (taken : Header.read mode cur = .ok (header, after)) (leaf : header.selfClosing = false) :
    Name.isVoid header.name = false := by
  have finished : ∃ scan attributes terminated, header = Header.finish scan attributes terminated := by
    obtain ⟨last, -, ⟨-, same⟩ | ⟨-, -, -, same⟩⟩ := Header.run_cases taken
    · exact ⟨_, _, _, same⟩
    · exact ⟨_, _, _, same⟩
  obtain ⟨scan, attributes, terminated, rfl⟩ := finished
  simp only [Header.finish, Bool.or_eq_false_iff, Bool.and_eq_false_iff] at leaf ⊢
  cases void : Name.isVoid scan.tag with
  | false => rfl
  | true =>
    rw [void, isComponent_of_isVoid void] at leaf
    simp at leaf

/-- A header without its `>` is at the end of the text, where it makes no
difference whether content is said to follow. -/
theorem readOn_terminated {cur after : Cursor} {header : Header}
    (taken : Header.read mode cur = .ok (header, after)) (assembly : Assembly) :
    readOn ⟨.plain, mode, cut⟩ ⟨header.terminated, assembly, after⟩ =
      readOn ⟨.plain, mode, cut⟩ ⟨true, assembly, after⟩ := by
  obtain ⟨last, -, ⟨-, rfl⟩ | ⟨-, -, ended, -⟩⟩ := Header.run_cases taken
  · rfl
  · rw [Fragment.readOn_of_rest_nil _ _ _ ended, Fragment.readOn_of_rest_nil _ _ _ ended]

/-- While `frame` is the innermost element, the loop reads its children as
`content` does, and goes on with the stack that is left when the element is
closed.  This from every place with less than `n` characters left. -/
def Agrees (n : Nat) : Prop :=
  ∀ (frame : Frame) (outer : List Frame) (cur : Cursor), cur.rest.length < n →
    (readOn ⟨.plain, mode, cut⟩ ⟨true, stack (frame :: outer), cur⟩ >>= conclude mode) =
      (plain (content mode cut frame.name cur) >>= fun inside =>
        readOn ⟨.plain, mode, cut⟩ (closed (frame.add inside.1) outer inside.2) >>=
          conclude mode)

variable {mode cut}

/-- The step at a closing tag. -/
theorem readClosing_agrees {n : Nat} (ih : Agrees mode cut n) (frame : Frame) (outer : List Frame)
    {cur : Cursor} (more : cur.rest ≠ []) (size : cur.rest.length ≤ n) :
    (readClosing ⟨.plain, mode, cut⟩ (stack (frame :: outer)) cur >>=
        readOn ⟨.plain, mode, cut⟩ >>= conclude mode) =
      let tag := closing cur more
      (if mode = .strict ∧ tag.ended = false then
        .error (.unterminatedTag ("/" ++ tag.name) cur.position)
      else if Name.isVoid tag.name then plain (content mode cut frame.name tag.after.1)
      else if mode = .strict ∧ tag.name ≠ frame.name then
        .error (.mismatchedClosingTag frame.name tag.name cur.position)
      else .ok ([], tag.after.1)) >>= fun inside =>
        readOn ⟨.plain, mode, cut⟩ (closed (frame.add inside.1) outer inside.2) >>=
          conclude mode := by
  rw [readClosing_stack mode cut frame outer cur more]
  generalize closing cur more = tag
  obtain ⟨name, ended, next, shorter⟩ := tag
  dsimp only
  split
  · rfl
  split
  · exact ih frame outer next (by omega)
  split
  · rfl
  · simp only [ok_bind, Frame.add_nil]

/-- The step at an opening tag. -/
theorem readOpening_agrees {n : Nat} (ih : Agrees mode cut n) (frame : Frame) (outer : List Frame)
    {cur : Cursor} (more : cur.rest ≠ []) (size : cur.rest.length ≤ n) :
    (readOpening ⟨.plain, mode, cut⟩ (stack (frame :: outer)) cur >>=
        readOn ⟨.plain, mode, cut⟩ >>= conclude mode) =
      (plain (element mode cut cur more) >>= fun child =>
        plain (content mode cut frame.name child.2) >>= fun inside =>
          readOn ⟨.plain, mode, cut⟩ (closed (frame.add (child.1 :: inside.1)) outer inside.2) >>=
            conclude mode) := by
  rw [Fragment.readOpening_eq, plain_element]
  cases taken : Header.read mode cur.next with
  | error fault => rfl
  | ok read =>
    obtain ⟨⟨name, written, selfClosing, terminated⟩, inner⟩ := read
    have shorter : inner.rest.length < cur.rest.length :=
      Nat.lt_of_le_of_lt (Header.reaches_read taken).length_le (Cursor.length_next_lt more)
    simp only [ok_bind]
    cases nestAttributes ⟨.plain, mode, cut⟩ written with
    | error fault => rfl
    | ok attributes =>
      simp only [ok_bind]
      cases selfClosing with
      | true =>
        rw [openTag_leaf]
        have going : (terminated && Assembly.Opened.leaf != .root) = terminated := Bool.and_true _
        rw [going, readOn_terminated mode cut taken, ih _ _ _ (by omega), if_pos rfl, ok_bind]
        simp only [Frame.name_add, Frame.add_add, List.singleton_append]
      | false =>
        rw [openTag_frame name attributes terminated (notVoid_of_read mode taken rfl)]
        have going : (terminated && Assembly.Opened.opened != .root) = terminated :=
          Bool.and_true _
        rw [going, readOn_terminated mode cut taken, ih _ _ _ (by omega), if_neg (by simp)]
        dsimp only
        cases inside : plain (content mode cut name inner) with
        | error fault => rfl
        | ok read =>
          obtain ⟨children, stop⟩ := read
          have onward := bound_of_plain inside
          rw [ok_bind, ok_bind, ok_bind]
          have back := ih (frame.add [.tag (kindOf name) name attributes children false]) outer stop
            (by omega)
          simp only [Frame.name_add, Frame.add_add, List.singleton_append] at back
          exact back

/-- **The loop over tags is the recursive descent**, by induction on the
characters left. -/
theorem agrees (n : Nat) : Agrees mode cut n := by
  induction n with
  | zero =>
    intro frame outer cur size
    omega
  | succ n ih =>
    intro frame outer cur size
    rw [Fragment.readOn_true, plain_content]
    cases taken : Content.read mode cur with
    | error fault => rfl
    | ok read =>
      obtain ⟨segments, after⟩ := read
      have onward := (Content.reaches_read taken).length_le
      simp only [ok_bind, addSegments_stack, List.reverse_nil]
      cases textAndCode cut [] segments with
      | error fault => rfl
      | ok nodes =>
        simp only [ok_bind]
        by_cases more : after.rest = []
        · rw [if_pos more, dif_pos more, ok_bind]
          cases mode with
          | strict => rfl
          | lenient =>
            rw [ok_bind, readOn_closed_of_rest_nil cut _ _ more]
            rfl
        · rw [if_neg more, dif_neg more]
          unfold readTag
          by_cases slash : after.peekAt? 1 = some '/'
          · rw [if_pos slash, if_pos slash, readClosing_agrees ih _ _ more (by omega),
              Frame.name_add]
            generalize closing after more = tag
            obtain ⟨name, ended, next, shorter⟩ := tag
            by_cases cutOff : mode = .strict ∧ ended = false
            · simp only [if_pos cutOff, error_bind]
            · by_cases void : Name.isVoid name = true
              · simp only [if_neg cutOff, if_pos void]
                cases plain (content mode cut frame.name next) with
                | error fault => rfl
                | ok inside => simp only [ok_bind, Frame.add_add]
              · by_cases other : mode = .strict ∧ name ≠ frame.name
                · simp only [if_neg cutOff, if_neg void, if_pos other, error_bind]
                · simp only [if_neg cutOff, if_neg void, if_neg other, ok_bind, Frame.add_nil]
          · rw [if_neg slash, if_neg slash, readOpening_agrees ih _ _ more (by omega)]
            cases plain (element mode cut after more) with
            | error fault => rfl
            | ok child =>
              simp only [ok_bind, Frame.name_add, Frame.add_add]
              cases plain (content mode cut frame.name child.2) with
              | error fault => rfl
              | ok inside => rfl

end

/-! ## Whole fragments -/

/-- The fragment whose `<` is at the cursor, by recursive descent. -/
def root (mode : Mode) (cur : Cursor) (more : cur.rest ≠ []) : Except Error (Node × Cursor) :=
  plain (element mode (Fragment.split .plain mode) cur more)

theorem readRoot_eq_element (mode : Mode) (cut : String → Except Error (List Piece)) (cur : Cursor)
    (more : cur.rest ≠ []) :
    Fragment.readRoot ⟨.plain, mode, cut⟩ cur =
      (plain (element mode cut cur more) >>= fun read => .ok (some read.1, read.2)) := by
  rw [Fragment.readRoot_eq, Fragment.readOpening_eq, plain_element, ← stack_nil]
  cases taken : Header.read mode cur.next with
  | error fault => rfl
  | ok read =>
    obtain ⟨⟨name, written, selfClosing, terminated⟩, inner⟩ := read
    simp only [ok_bind]
    cases nestAttributes ⟨.plain, mode, cut⟩ written with
    | error fault => rfl
    | ok attributes =>
      simp only [ok_bind]
      cases selfClosing with
      | true =>
        rw [openTag_root]
        have stops : (terminated && Assembly.Opened.root != .root) = false := Bool.and_false _
        rw [stops, Fragment.readOn_false, if_pos rfl, ok_bind, ok_bind]
        cases mode with
        | strict => rfl
        | lenient => rfl
      | false =>
        rw [openTag_frame name attributes terminated (notVoid_of_read mode taken rfl)]
        have going : (terminated && Assembly.Opened.opened != .root) = terminated :=
          Bool.and_true _
        rw [going, readOn_terminated mode cut taken,
          agrees (inner.rest.length + 1) _ _ _ (by omega), if_neg (by simp)]
        dsimp only
        cases plain (content mode cut name inner) with
        | error fault => rfl
        | ok inside =>
          rw [ok_bind, ok_bind, ok_bind, closed, Fragment.readOn_false, ok_bind]
          cases mode with
          | strict => rfl
          | lenient => rfl

theorem rest_ne_nil_of_start {cur : Cursor} (start : Host.MarkupStart cur.rest) : cur.rest ≠ [] := by
  obtain ⟨c, more, begins, -⟩ := start
  rw [begins]
  exact List.cons_ne_nil _ _

/-- **Fragments are read as by recursive descent**: from any place where markup
starts, in both modes, the loop over tags gives the tree that `root` gives and
stops where it stops, or fails with the same fault. -/
theorem readRoot_eq_root (source : List Char) (offset : Nat) (mode : Mode)
    (start : Host.MarkupStart (Cursor.atByte source offset).rest) :
    Fragment.readRoot (Fragment.reader .plain mode) (.atByte source offset) =
      (root mode (.atByte source offset) (rest_ne_nil_of_start start) >>= fun read =>
        .ok (some read.1, read.2)) :=
  readRoot_eq_element mode _ _ (rest_ne_nil_of_start start)

/-- A fragment in the middle of a text, with markup inside code, a closing tag
of a void element, and a tag that is closed under another name. -/
theorem readRoot_eq_root_tangled :
    ∃ start : Host.MarkupStart (Cursor.atByte "é = <p a={<b/>}>{[<i/>]}<u></br></p>".toList 5).rest,
      Fragment.readRoot (Fragment.reader .plain .strict)
          (.atByte "é = <p a={<b/>}>{[<i/>]}<u></br></p>".toList 5) =
        (root .strict (.atByte "é = <p a={<b/>}>{[<i/>]}<u></br></p>".toList 5)
            (rest_ne_nil_of_start start) >>= fun read => .ok (some read.1, read.2)) :=
  have start : Host.MarkupStart
      (Cursor.atByte "é = <p a={<b/>}>{[<i/>]}<u></br></p>".toList 5).rest :=
    ⟨'p', " a={<b/>}>{[<i/>]}<u></br></p>".toList, by decide +kernel, by decide +kernel⟩
  ⟨start, readRoot_eq_root _ 5 .strict start⟩

end InlineMarkup.Descent
