import InlineMarkup.Proofs.Inserting
import InlineMarkup.Proofs.Replacing

/-!
# InlineMarkup.Proofs.VoidTags

Closing tags of void elements.  A void element is closed by its own tag, and no node of its kind is
ever open; so a closing tag that names one has nothing to close, and is passed over with the empty
content before it.  That is so inside a fragment only: the tag of a void element that is a root ends
its fragment, and what follows is code.

* `Assembly.NoVoid`: no node that is open names a void element;
* `Pragma.mute_closingTag`: a closing tag holds nothing that matters to pragmas;
* `Fragment.VoidTag`: the places after such tags, inside tags and inside code in braces;
* `translate_closingTag`: a closing tag inserted there changes nothing.
-/

namespace InlineMarkup

open Cursor (Fork Shares)
open Outcome (bind_eq_ok ok_bind)
open Text (Blank)

/-! ## Open nodes -/

namespace Assembly

/-- No node that is open names a void element. -/
def NoVoid (assembly : Assembly) : Prop :=
  ∀ name, some name ∈ assembly.stack.map Node.name? → Name.isVoid name = false

theorem names_attach (node : Node) (assembly : Assembly) :
    (assembly.attach node).stack.map Node.name? = assembly.stack.map Node.name? := by
  have kept (parent : Node) : (parent.pushChild node).name? = parent.name? := by
    unfold Node.pushChild
    split
    · rfl
    · rfl
  obtain ⟨stack, root⟩ := assembly
  cases stack with
  | nil => rfl
  | cons parent outer => simp [attach, kept]

variable {assembly : Assembly}

theorem NoVoid.attach (others : assembly.NoVoid) (node : Node) : (assembly.attach node).NoVoid := by
  unfold NoVoid
  rw [names_attach]
  exact others

theorem NoVoid.addText (others : assembly.NoVoid) (maker : NodeMaker) (segments : List Segment) :
    (assembly.addText maker segments).NoVoid := by
  unfold Assembly.addText
  split
  · exact others
  · exact others.attach _

theorem NoVoid.closeTag (others : assembly.NoVoid) (name : String) :
    (assembly.closeTag name).2.NoVoid := by
  unfold Assembly.closeTag
  split
  · exact others
  · obtain ⟨stack, root⟩ := assembly
    cases stack with
    | nil => exact others
    | cons node outer =>
      have rest : NoVoid ⟨outer, root⟩ := fun name mem => others name (List.mem_cons_of_mem _ mem)
      exact rest.attach node

theorem NoVoid.openTag (others : assembly.NoVoid) {header : Header}
    (named : header.selfClosing = false → Name.isVoid header.name = false) :
    (assembly.openTag .plain header).2.NoVoid := by
  unfold Assembly.openTag
  dsimp only
  split
  · exact others.attach _
  · next leaf =>
    intro name mem
    rw [Descent.ofHeader_plain] at mem
    obtain same | mem := List.mem_cons.1 mem
    · obtain rfl := Option.some.inj same
      exact named (by simpa using leaf)
    · exact others name mem

/-- So the closing tag of a void element closes nothing. -/
theorem NoVoid.closeTag_eq (others : assembly.NoVoid) {name : String}
    (void : Name.isVoid name = true) : assembly.closeTag name = (.ignoredVoid, assembly) := by
  refine if_pos ⟨void, fun current => ?_⟩
  obtain ⟨stack, root⟩ := assembly
  cases stack with
  | nil => contradiction
  | cons node outer =>
    have named : node.name? = some name := current
    have other := others name (List.mem_cons.2 (.inl named.symm))
    rw [void] at other
    contradiction

end Assembly

namespace Fragment

theorem noVoid_addSegments {reader : Reader} {run segments : List Segment} {assembly grown : Assembly}
    (others : assembly.NoVoid) (h : addSegments reader run assembly segments = .ok grown) :
    grown.NoVoid := by
  fun_induction addSegments reader run assembly segments with
  | case1 run assembly =>
    cases h
    exact others.addText _ _
  | case2 run assembly code rest holds ih =>
    obtain ⟨pieces, -, h⟩ := bind_eq_ok.1 h
    exact ih pieces ((others.addText _ _).attach _) h
  | case3 run assembly code rest bare ih => exact ih others h
  | case4 run assembly segment rest other ih => exact ih others h

section

variable {reader : Reader} {half next : Half}

theorem noVoid_readOpening (plain : reader.maker = .plain) {assembly : Assembly} {cur : Cursor}
    {turn : Turn} (others : assembly.NoVoid) (h : readOpening reader assembly cur = .ok turn) :
    turn.assembly.NoVoid := by
  rw [readOpening_eq, plain] at h
  obtain ⟨⟨header, stop⟩, taken, h⟩ := bind_eq_ok.1 h
  obtain ⟨attributes, -, h⟩ := bind_eq_ok.1 h
  cases h
  have named := Descent.notVoid_of_read _ taken
  exact others.openTag named

theorem noVoid_readClosing {assembly : Assembly} {cur : Cursor} {turn : Turn}
    (others : assembly.NoVoid) (h : readClosing reader assembly cur = .ok turn) :
    turn.assembly.NoVoid := by
  unfold readClosing at h
  dsimp only at h
  repeat' split at h
  all_goals first | contradiction | (cases h; exact others.closeTag _)

theorem noVoid_pass (plain : reader.maker = .plain) (others : half.assembly.NoVoid)
    (made : pass reader half = .inl next) : next.assembly.NoVoid := by
  obtain ⟨stage, assembly, cur⟩ := half
  cases stage with
  | tagOpen =>
    obtain ⟨grown, last, opened, rfl⟩ := afterTag_eq_inl.1 made
    exact noVoid_readOpening plain others opened
  | endTag =>
    obtain ⟨grown, last, closed, rfl⟩ := afterTag_eq_inl.1 made
    exact noVoid_readClosing others closed
  | content =>
    simp only [pass] at made
    split at made
    · contradiction
    · split at made
      · contradiction
      · next added =>
        split at made
        · contradiction
        · cases made
          exact noVoid_addSegments others added

theorem noVoid_of_passes (plain : reader.maker = .plain) {start : Cursor}
    (passes : Loop.Passes (pass reader) (.start start) half) : half.assembly.NoVoid := by
  induction passes with
  | refl => exact fun name mem => absurd mem List.not_mem_nil
  | tail _ made ih => exact noVoid_pass plain ih made

end

end Fragment

/-! ## Closing tags -/

/-- The closing tag of an element, without white space. -/
def closingTag (name : String) : List Char := Layout.closingText [] name []

theorem getLast?_closingTag (name : String) : (closingTag name).getLast? = some '>' := by
  have whole : closingTag name = ('<' :: '/' :: name.toList) ++ ['>'] := by
    simp [closingTag, Layout.closingText]
  rw [whole, List.getLast?_concat]

theorem plain_closingTag {name : String} (void : Name.isVoid name = true) :
    ∀ c ∈ closingTag name, c ≠ '\x7b' ∧ c ≠ '\x7d' := by
  have elements : ∀ void ∈ Name.voidElements,
      '\x7b' ∉ closingTag void ∧ '\x7d' ∉ closingTag void := by
    decide +kernel
  obtain ⟨opening, closing⟩ := elements name (by simpa [Name.isVoid] using void)
  exact fun c mem => ⟨fun same => opening (same ▸ mem), fun same => closing (same ▸ mem)⟩

/-- No comment begins or ends in it, and it holds no pragma. -/
theorem Pragma.mute_closingTag {name : String} (void : Name.isVoid name = true) :
    Mute (closingTag name) := by
  have elements : ∀ void ∈ Name.voidElements, ('@' ∉ closingTag void ∧ '\n' ∉ closingTag void ∧
      '*' ∉ closingTag void) ∧ void.toList ≠ [] ∧ '/' ∉ void.toList ∧ '*' ∉ void.toList := by
    decide +kernel
  obtain ⟨⟨noKeyword, noFeed, noStar⟩, nonempty, noSlash, noStars⟩ :=
    elements name (by simpa [Name.isVoid] using void)
  have skipped (text rest : List Char) (none : '/' ∉ text) :
      first? (text ++ rest) = first? rest := by
    induction text with
    | nil => rfl
    | cons c text ih =>
      rw [List.mem_cons, not_or] at none
      rw [List.cons_append, first?, if_neg (Ne.symm none.1), ih none.2]
      rfl
  refine ⟨fun c mem => ⟨?_, ?_, ?_⟩, fun rest => ?_⟩
  · exact fun same => noKeyword (same ▸ mem)
  · exact fun same => noFeed (same ▸ mem)
  · exact fun same => noStar (same ▸ mem)
  · -- What stands after the slash is a letter of the name.
    have whole : closingTag name ++ rest = '<' :: '/' :: (name.toList ++ ('>' :: rest)) := by
      simp [closingTag, Layout.closingText]
    obtain ⟨c, letters, begins⟩ := List.exists_cons_of_ne_nil nonempty
    have closed : afterSlash? (name.toList ++ '>' :: rest) = none := by
      rw [begins, List.mem_cons, not_or] at noSlash noStars
      rw [begins, List.cons_append, afterSlash?_cons, if_neg (Ne.symm noSlash.1),
        if_neg (Ne.symm noStars.1)]
    rw [whole, first?, first?, if_neg (by decide), if_pos rfl, closed, skipped _ _ noSlash, first?,
      if_neg (by decide)]
    rfl

theorem tagName_of_isVoid {name : String} (void : Name.isVoid name = true) : TagName name := by
  have elements : ∀ void ∈ Name.voidElements, TagName void := by decide +kernel
  exact elements name (by simpa [Name.isVoid] using void)

namespace Fragment

/-- A closing tag of a void element is passed over, with the empty content before it. -/
theorem readOn_closingTag {assembly : Assembly} {cur : Cursor} {name : String} {after : List Char}
    (others : assembly.NoVoid) (void : Name.isVoid name = true)
    (begins : cur.rest = closingTag name ++ after) :
    readOn lenient ⟨true, assembly, cur⟩ =
      readOn lenient ⟨true, assembly, cur.advance (closingTag name).length⟩ := by
  have more : cur.rest ≠ [] := by rw [begins]; simp [closingTag, Layout.closingText]
  have tag : Content.tagBegins cur.rest = true := by rw [begins]; rfl
  have slash : cur.peekAt? 1 = some '/' := by rw [Cursor.peekAt?, begins]; rfl
  have content : Content.read lenient.mode cur = .ok ([], cur) := by
    rw [Content.read, Content.readFrom_eq, Content.lead_tag tag]
    rfl
  obtain ⟨named, -, stop⟩ :=
    Descent.closing_written (tagName_of_isVoid void) Text.blank_nil Text.blank_nil begins more
  have closed : readClosing lenient assembly cur =
      .ok ⟨true, assembly, cur.advance (closingTag name).length⟩ := by
    have closes := Descent.readClosing_eq .lenient lenient.cut assembly cur more
    dsimp only at closes
    rw [named, others.closeTag_eq void, stop] at closes
    exact closes
  rw [readOn_true, content, ok_bind]
  dsimp only
  rw [addSegments, ok_bind, if_neg more]
  show readTag lenient assembly cur >>= readOn lenient = _
  rw [readTag, if_pos slash, closed, ok_bind]

/-- Inside another one, every tag that has its `>` is followed by content. -/
theorem goesOn_of_readOpening {reader : Reader} {assembly : Assembly} {place stop : Cursor}
    {header : Header} {turn : Turn} (inside : assembly.stack ≠ [])
    (read : Header.read reader.mode place.next = .ok (header, stop))
    (terminated : header.terminated = true) (opened : readOpening reader assembly place = .ok turn) :
    turn.goesOn = true := by
  rw [readOpening_eq, read, ok_bind] at opened
  obtain ⟨attributes, -, opened⟩ := bind_eq_ok.1 opened
  cases opened
  dsimp only
  rw [terminated, Bool.true_and]
  unfold Assembly.openTag
  dsimp only
  split
  · simp [inside]
  · rfl

/-- An opening tag that has its `>` is two characters long at least. -/
theorem length_of_header {mode : Mode} {place stop : Cursor} {header : Header}
    (read : Header.read mode place.next = .ok (header, stop))
    (terminated : header.terminated = true) : stop.rest.length + 2 ≤ place.rest.length := by
  have unfinished : (Header.Scan.start place.next).phase ≠ .done := by simp [Header.Scan.start]
  have inner : place.next.rest ≠ [] := Header.rest_ne_nil_of_terminated unfinished read terminated
  have outer : place.rest ≠ [] := by
    intro ended
    rw [Cursor.next_of_rest_nil ended] at inner
    contradiction
  have onward : place.next.next.Reaches stop := Header.reaches_run_next unfinished inner read
  have first := Cursor.length_next_lt outer
  have second := Cursor.length_next_lt inner
  have le := onward.length_le
  omega

/-- A closing tag after the tag of a void element is passed over. -/
theorem agrees_tag {name : String} (void : Name.isVoid name = true) {assembly : Assembly}
    {place place' stop : Cursor} {header : Header} (others : assembly.NoVoid)
    (inside : assembly.stack ≠ []) (read : Header.read .lenient place.next = .ok (header, stop))
    (terminated : header.terminated = true)
    (fork : Fork stop.rest (closingTag name ++ stop.rest) place place') :
    (Half.mk .tagOpen assembly place).Agrees ⟨.tagOpen, assembly, place'⟩ := by
  intro result last h
  have two := length_of_header read terminated
  have room : Shares stop.rest (closingTag name ++ stop.rest) 1 place :=
    .inr ⟨List.length_pos_iff.1 (by omega), by omega⟩
  obtain ⟨stop', read', moved⟩ :=
    Header.read_fork (fork.next room) read (.inr ⟨terminated, Nat.le_refl _⟩)
  have begins' : stop'.rest = closingTag name ++ stop.rest := by
    obtain ⟨ahead, rest, rest'⟩ := moved.rest
    rw [List.append_left_eq_self.1 rest.symm] at rest'
    exact rest'
  obtain ⟨turn, opened, h⟩ := bind_eq_ok.1 h
  obtain ⟨grown, opened', alike, atStop⟩ := readOpening_alike rfl rfl opened read read' (.refl _)
  rw [goesOn_of_readOpening inside read terminated opened] at opened'
  have again : (Half.mk .tagOpen assembly place').read lenient =
      readOn lenient ⟨true, grown, stop'.advance (closingTag name).length⟩ := by
    rw [Half.read, opened', ok_bind]
    exact readOn_closingTag (noVoid_readOpening rfl others opened') void begins'
  -- After the two tags the same text is left, and both end with a `>`.
  have beyond : Fork [] [] stop (stop'.advance (closingTag name).length) := by
    refine ⟨⟨stop.rest, (List.append_nil _).symm, ?_⟩, .inl ?_⟩
    · rw [Cursor.rest_of_append begins', List.append_nil]
    · rw [Header.previous?_of_terminated (by simp [Header.Scan.start]) read terminated,
        Cursor.previous?_advance, begins', List.take_left, getLast?_closingTag]
      rfl
  rw [again]
  refine readOn_agrees alike (atStop ▸ beyond) ?_
  rw [← goesOn_of_readOpening inside read terminated opened]
  exact h

end Fragment

/-! ## Tags of void elements -/

namespace Fragment

/-- The code in the braces at the cursor is `first` and `last`, white space around it apart, and
`after` is all that the text has after `first`. -/
structure Braced (cur : Cursor) (first last after : List Char) : Prop where
  starts : first.head?.any Unicode.isSpace = false
  stops : last.getLast?.any Unicode.isSpace = false
  place : ∃ left right, Blank left ∧ Blank right ∧
    cur.rest = '\x7b' :: (left ++ (first ++ after)) ∧
    (Group.read cur).code = left ++ ((first ++ last) ++ right)

/-- Code is read up to the end of a tag of the void element `name`, which stands inside a
fragment: `before` the place, and `after` it. -/
inductive VoidTag (name : String) : List Char → List Char → Prop
  /-- The tag stands inside another one. -/
  | tag {before after : List Char} {pieces : List Piece} {cur start : Cursor} {assembly : Assembly}
      {place stop : Cursor} {header : Header}
      (comes : Comes (before ++ after) pieces cur start ⟨.tagOpen, assembly, place⟩)
      (inside : assembly.stack ≠ [])
      (read : Header.read .lenient place.next = .ok (header, stop)) (named : header.name = name)
      (terminated : header.terminated = true) (ends : stop.rest = after) :
      VoidTag name before after
  /-- It stands in code in braces between tags. -/
  | content {before after : List Char} {pieces : List Piece} {cur start : Cursor}
      {assembly : Assembly} {place braces : Cursor} {pending : List Char} {segments : List Segment}
      {first last : List Char}
      (comes : Comes (before ++ after) pieces cur start ⟨.content, assembly, place⟩)
      (reads : Loop.Passes (Content.pass .lenient) ⟨[], [], place⟩ ⟨pending, segments, braces⟩)
      (braced : Braced braces first last after) (inner : VoidTag name first last) :
      VoidTag name before after
  /-- It stands in code in braces that is the value of an attribute. -/
  | value {before after : List Char} {pieces : List Piece} {cur start : Cursor}
      {assembly : Assembly} {place : Cursor} {scan : Header.Scan} {key : String}
      {first last : List Char}
      (comes : Comes (before ++ after) pieces cur start ⟨.tagOpen, assembly, place⟩)
      (reads : Loop.Passes (Header.pass .lenient place.next.position) (.start place.next) scan)
      (phase : scan.phase = .beforeValue key) (braced : Braced scan.cursor first last after)
      (inner : VoidTag name first last) : VoidTag name before after

/-- A place reached in a text, from what is left there. -/
theorem exists_before {before after text : List Char} {cur : Cursor}
    (reached : (Cursor.ofList (before ++ after)).Reaches cur) (rest : cur.rest = text ++ after) :
    before = cur.consumed ++ text := by
  obtain ⟨n, rfl⟩ := reached
  have whole := Cursor.source_advance n (.ofList (before ++ after))
  rw [Cursor.source, rest, ← List.append_assoc] at whole
  exact (List.append_cancel_right whole).symm

namespace Comes

variable {before after : List Char} {pieces : List Piece} {cur start : Cursor} {half : Half}

/-- Where code in braces is found after a place, there is room before its parts. -/
theorem braced (comes : Comes (before ++ after) pieces cur start half) {braces : Cursor}
    {first last : List Char} (reached : half.cursor.Reaches braces)
    (braced : Braced braces first last after) (ends : first.getLast? = some '>')
    (long : 3 ≤ first.length) : before.getLast? = some '>' ∧ 3 ≤ before.length := by
  obtain ⟨left, right, -, -, rest, -⟩ := braced.place
  have rest : braces.rest = ('\x7b' :: (left ++ first)) ++ after := by rw [rest]; simp
  have whole := (comes.reaches_start.trans comes.reaches).trans reached
  rw [exists_before whole rest]
  constructor
  · rw [List.getLast?_append, ← List.cons_append, List.getLast?_append, ends]
    rfl
  · simp only [List.length_append, List.length_cons]
    omega

end Comes

/-- The tag ends with its `>`, and something stands before it. -/
theorem VoidTag.ends {name : String} {before after : List Char} (place : VoidTag name before after) :
    before.getLast? = some '>' ∧ 3 ≤ before.length := by
  induction place with
  | content comes reads braced inner ih =>
    exact comes.braced (reads.reaches Content.Half.cursor Content.reaches_of_pass) braced ih.1 ih.2
  | value comes reads phase braced inner ih =>
    have onward := reads.reaches Header.Scan.cursor Header.reaches_of_pass
    exact comes.braced ((Cursor.reaches_next _).trans onward) braced ih.1 ih.2
  | @tag before after pieces cur start assembly place stop header comes inside read named terminated
      ends =>
    have unfinished : (Header.Scan.start place.next).phase ≠ .done := by simp [Header.Scan.start]
    have last := Header.previous?_of_terminated unfinished read terminated
    have onward := (Cursor.reaches_next _).trans (Header.reaches_read read)
    have whole := (comes.reaches_start.trans comes.reaches).trans onward
    have same := exists_before whole (show stop.rest = [] ++ after from ends)
    rw [List.append_nil] at same
    constructor
    · rw [same, Cursor.consumed, List.getLast?_reverse]
      exact last
    · -- The tag around it is before it, and it is two characters long itself.
      obtain same | ⟨mid, made, further⟩ := Relation.ReflTransGen.cases_head comes.read
      · cases same
        contradiction
      · have tag : (Half.start start).stage ≠ .content := by simp [Half.start]
        have opened := ((reads_of_tagPass tag).1 mid made).2
        have reached := opened.trans (Loop.Passes.reaches Half.cursor reaches_of_pass further)
        have size := comes.reaches_start.length_le
        have first := Cursor.length_next_lt comes.more
        have le := reached.length_le
        have two := length_of_header read terminated
        rw [Cursor.ofList, List.length_append] at size
        dsimp only [Half.start] at first le size
        rw [ends] at two
        omega

namespace Braced

variable {name : String} {cur cur' : Cursor} {first last after : List Char}

/-- Code in braces, and what it is with a closing tag inserted. -/
theorem group (braced : Braced cur first last after) (void : Name.isVoid name = true)
    (ends : first.getLast? = some '>') (fork : Fork after (closingTag name ++ after) cur cur') :
    (Group.read cur).trimmed = String.ofList (first ++ last) ∧
      (Group.read cur').trimmed = String.ofList (first ++ (closingTag name ++ last)) ∧
      Fork [] [] (Group.read cur).cursor (Group.read cur').cursor := by
  obtain ⟨left, right, opening, closing, begins, code⟩ := braced.place
  have begins' : cur'.rest = '\x7b' :: ((left ++ first) ++ (closingTag name ++ after)) := by
    obtain ⟨ahead, rest, rest'⟩ := fork.rest
    have same : '\x7b' :: (left ++ first) ++ after = ahead ++ after := by
      rw [← rest, begins]
      simp
    rw [rest', ← List.append_cancel_right same]
    rfl
  have last' : (left ++ first).getLast? = some '>' := by rw [List.getLast?_append, ends]; rfl
  obtain ⟨code', moved⟩ := Group.read_insert (by rw [begins]; simp) begins' (plain_closingTag void)
    last' (getLast?_closingTag name)
    (show (Group.read cur).code = (left ++ first) ++ (last ++ right) by rw [code]; simp)
  have head (rest : List Char) : (first ++ rest).head?.any Unicode.isSpace = false := by
    cases first with
    | nil => contradiction
    | cons c first => exact braced.starts
  have tail {text : List Char} (bracket : text.getLast? = some '>') :
      (text ++ last).getLast?.any Unicode.isSpace = false := by
    rw [List.getLast?_append, bracket]
    cases stops : last.getLast? with
    | none => decide
    | some c => simpa [stops] using braced.stops
  have bracket : (first ++ closingTag name).getLast? = some '>' := by
    rw [List.getLast?_append, getLast?_closingTag]
    rfl
  refine ⟨?_, ?_, moved⟩
  · rw [Group.trimmed, code, Text.trim_blank opening closing,
      Text.trim_eq_self (head last) (tail ends)]
  · have whole : left ++ first ++ (closingTag name ++ (last ++ right)) =
        left ++ ((first ++ closingTag name ++ last) ++ right) := by simp
    rw [Group.trimmed, code', whole, Text.trim_blank opening closing, List.append_assoc first,
      Text.trim_eq_self (head _) (by rw [← List.append_assoc]; exact tail bracket)]

end Braced

/-- Where code in braces is found, it is long enough for readers to look ahead before its parts. -/
theorem Braced.shares {cur : Cursor} {first last after tail : List Char}
    (braced : Braced cur first last after) (long : 3 ≤ first.length) : Shares after tail 2 cur := by
  obtain ⟨left, right, -, -, begins, -⟩ := braced.place
  refine .inr ⟨by rw [begins]; exact List.cons_ne_nil _ _, ?_⟩
  rw [begins]
  simp only [List.length_cons, List.length_append]
  omega

/-- By induction on the place: inside braces the code is cut alike, and so is the code around
them. -/
theorem VoidTag.cutsAlike {name : String} (void : Name.isVoid name = true) {before after : List Char}
    (place : VoidTag name before after) :
    lenient.CutsAlike (String.ofList (before ++ after))
      (String.ofList (before ++ (closingTag name ++ after))) := by
  induction place with
  | @tag before after pieces cur start assembly place stop header comes inside read named terminated
      ends =>
    subst ends
    have two := length_of_header read terminated
    have room : Shares stop.rest (closingTag name ++ stop.rest) 2 place :=
      .inr ⟨List.length_pos_iff.1 (by omega), by omega⟩
    obtain ⟨cur', start', place', comes', between, fork⟩ := comes.fork room
    refine comes.cutsAlike comes' between ?_
    exact agrees_tag void (noVoid_of_passes rfl comes.read) inside read terminated fork
  | @content before after pieces cur start assembly place braces pending segments first last comes
      reads braced inner ih =>
    obtain ⟨ends, long⟩ := inner.ends
    have room : Shares after (closingTag name ++ after) 2 _ := braced.shares long
    have onward := reads.reaches Content.Half.cursor Content.reaches_of_pass
    obtain ⟨cur', start', place', comes', between, fork⟩ := comes.fork (room.of_reaches onward)
    obtain ⟨braces', reads', moved⟩ := Content.passes_fork reads room fork
    obtain ⟨trimmed, trimmed', beyond⟩ := braced.group void ends moved
    obtain ⟨left, right, -, -, begins, -⟩ := braced.place
    obtain ⟨more, begins'⟩ := moved.rest_cons (room.mono (by omega)) begins
    refine comes.cutsAlike comes' between ?_
    rw [← trimmed, ← trimmed'] at ih
    exact agrees_content reads reads' begins begins' ih beyond
  | @value before after pieces cur start assembly place scan key first last comes reads phase braced
      inner ih =>
    obtain ⟨ends, long⟩ := inner.ends
    have room : Shares after (closingTag name ++ after) 2 _ := braced.shares long
    have inTag := reads.reaches Header.Scan.cursor Header.reaches_of_pass
    have onward := (Cursor.reaches_next _).trans inTag
    obtain ⟨cur', start', place', comes', between, fork⟩ := comes.fork (room.of_reaches onward)
    have atNext := (room.of_reaches onward).mono (show 1 ≤ 2 by omega)
    obtain ⟨braces', reads', moved⟩ :=
      Header.passes_fork reads room (fork.next atNext) place'.next.position
    obtain ⟨trimmed, trimmed', beyond⟩ := braced.group void ends moved
    obtain ⟨left, right, -, -, begins, -⟩ := braced.place
    obtain ⟨more, begins'⟩ := moved.rest_cons (room.mono (by omega)) begins
    refine comes.cutsAlike comes' between ?_
    rw [← trimmed, ← trimmed'] at ih
    exact agrees_value reads reads' phase begins begins' ih beyond

end Fragment

/-! ## Whole sources -/

/-- Pieces that differ in sources only are written alike. -/
theorem Translator.map_writePiece_unsourced (config : Config) {pieces pieces' : List Piece}
    (same : pieces'.map Piece.unsourced = pieces.map Piece.unsourced) :
    pieces'.map (plain.writePiece config) = pieces.map (plain.writePiece config) := by
  have written (piece : Piece) :
      plain.writePiece config piece.unsourced = plain.writePiece config piece := by
    cases piece with
    | code text => rw [Piece.unsourced_code]
    | markup root =>
      rw [Piece.unsourced_markup]
      exact Node.render_unsourced config root
  have through (pieces : List Piece) :
      (pieces.map Piece.unsourced).map (plain.writePiece config) =
        pieces.map (plain.writePiece config) := by
    rw [List.map_map]
    exact List.map_congr_left fun piece _ => written piece
  rw [← through pieces', same, through]

/-- A closing tag leaves the settings as they are, unless it is in the name of the pragma. -/
theorem Config.resolve_closingTag (config : Config) {name : String}
    (void : Name.isVoid name = true) {before after : List Char}
    (ends : before.getLast? = some '>')
    (apart : ∀ factory, config.pragma = true → Pragma.detect? (before ++ after) = some factory →
      ¬ Pragma.RunsThrough before factory) :
    config.resolve (String.ofList (before ++ (closingTag name ++ after))) =
      config.resolve (String.ofList (before ++ after)) := by
  unfold Config.resolve Config.pragma?
  simp only [String.toList_ofList]
  split
  · next honoured =>
    rw [Pragma.detect?_insert (Pragma.mute_closingTag void) ends fun factory found =>
      apart factory honoured found]
  · rfl

/-- **Closing tags of void elements are passed over**: after the tag of a void element that stands
inside a fragment, at any depth and in any code in braces, a closing tag for it changes nothing in
what a source is translated into, as long as the name that a pragma gives does not run on through
the place. -/
theorem translate_closingTag (config : Config) (lenient : config.mode = .lenient) {name : String}
    (void : Name.isVoid name = true) {before after : List Char}
    (place : Fragment.VoidTag name before after)
    (apart : ∀ factory, config.pragma = true → Pragma.detect? (before ++ after) = some factory →
      ¬ Pragma.RunsThrough before factory) :
    Translator.plain.translate config (String.ofList (before ++ (closingTag name ++ after))) =
      Translator.plain.translate config (String.ofList (before ++ after)) := by
  have mode (source : String) : (config.resolve source).mode = .lenient := by
    have kept := congrArg Config.mode (Config.resolve_mode config config.mode source)
    exact kept.trans lenient
  obtain ⟨pieces, pieces', cut, cut', same⟩ := (place.cutsAlike void).pieces
  unfold Translator.translate
  dsimp only
  rw [config.resolve_closingTag void place.ends.1 apart, mode]
  change Fragment.split .plain .lenient (String.ofList (before ++ after)) = .ok pieces at cut
  change Fragment.split .plain .lenient _ = .ok pieces' at cut'
  show Fragment.split .plain .lenient _ >>= _ = Fragment.split .plain .lenient _ >>= _
  rw [cut, cut', ok_bind, ok_bind, Translator.map_writePiece_unsourced _ same]

/-- A source up to the end of a tag inside another one, in code in braces inside a third one. -/
def nestedBefore : List Char := "// @jsx m\nx = <p>\x7ba && <b><br>".toList

/-- What follows there. -/
def nestedAfter : List Char := "</b>\x7d</p>".toList

theorem Fragment.voidTag_nested : VoidTag "br" nestedBefore nestedAfter := by
  have inner : VoidTag "br" "a && <b><br>".toList "</b>".toList := by
    have passed : (Loop.after (pass lenient) 2
        (.start ((Cursor.ofList "a && <b><br></b>".toList).advance 5))).map
          (fun half => (half.stage, half.assembly.stack.isEmpty, half.cursor)) =
        some (.tagOpen, false, (Cursor.ofList "a && <b><br></b>".toList).advance 8) := by
      decide +kernel
    have read : (Header.read .lenient
        ((Cursor.ofList "a && <b><br></b>".toList).advance 8).next).toOption.map
          (fun read => (read.1.name, read.1.terminated, read.2.rest)) =
        some ("br", true, "</b>".toList) := by
      decide +kernel
    obtain ⟨⟨stage, assembly, place⟩, passed, same⟩ := Option.map_eq_some_iff.1 passed
    obtain ⟨rfl, inside, rfl⟩ := by simpa only [Prod.mk.injEq] using same
    obtain ⟨⟨header, stop⟩, read, same⟩ := Option.map_eq_some_iff.1 read
    obtain ⟨named, terminated, ends⟩ := by simpa only [Prod.mk.injEq] using same
    exact .tag ⟨.refl, by decide +kernel, Loop.passes_of_after passed⟩ (by simpa using inside)
      (Outcome.eq_ok_of_toOption read) named terminated ends
  have passed : (Loop.after (pass lenient) 1
      (.start ((Cursor.ofList (nestedBefore ++ nestedAfter)).advance 14))).map
        (fun half => (half.stage, half.cursor)) =
      some (.content, (Cursor.ofList (nestedBefore ++ nestedAfter)).advance 17) := by
    decide +kernel
  obtain ⟨⟨stage, assembly, place⟩, passed, same⟩ := Option.map_eq_some_iff.1 passed
  obtain ⟨rfl, rfl⟩ := by simpa only [Prod.mk.injEq] using same
  have braced : Braced ((Cursor.ofList (nestedBefore ++ nestedAfter)).advance 17)
      "a && <b><br>".toList "</b>".toList nestedAfter :=
    ⟨by decide +kernel, by decide +kernel, [], [], Text.blank_nil, Text.blank_nil,
      by decide +kernel, by decide +kernel⟩
  exact .content ⟨.refl, by decide +kernel, Loop.passes_of_after passed⟩ .refl braced inner

theorem translate_closingTag_nested :
    Config.standard.mode = .lenient ∧ Name.isVoid "br" = true ∧
      Fragment.VoidTag "br" nestedBefore nestedAfter ∧
      Pragma.detect? (nestedBefore ++ nestedAfter) = some ['m'] ∧
      Translator.plain.translate .standard
          (String.ofList (nestedBefore ++ (closingTag "br" ++ nestedAfter))) =
        Translator.plain.translate .standard (String.ofList (nestedBefore ++ nestedAfter)) := by
  have pragma : Pragma.detect? (nestedBefore ++ nestedAfter) = some ['m'] := by decide +kernel
  have ends : nestedBefore.getLast? = some '>' := by decide +kernel
  have void : Name.isVoid "br" = true := by decide +kernel
  refine ⟨rfl, void, Fragment.voidTag_nested, pragma, ?_⟩
  refine translate_closingTag .standard rfl void Fragment.voidTag_nested fun factory _ found runs => ?_
  obtain rfl := Option.some.inj (pragma.symm.trans found)
  exact absurd (runs.mem ends) (by decide)

/-- A fragment ends with the tag of a void element that is its root: a closing tag after it is
code, and is kept. -/
theorem translate_closingTag_root :
    Name.isVoid "input" = true ∧
      (∃ start header stop,
        Fragment.Comes "x = <input>".toList [] (.ofList "x = <input>".toList) start (.start start) ∧
        Header.read .lenient start.next = .ok (header, stop) ∧ header.name = "input" ∧
        header.isComponent = false ∧ header.terminated = true ∧ stop.rest = []) ∧
      Translator.plain.translate .standard "x = <input>" = .ok "x = h('input', null)" ∧
      Translator.plain.translate .standard
        (String.ofList ("x = <input>".toList ++ closingTag "input")) =
          .ok "x = h('input', null)</input>" := by
  have read : (Header.read .lenient
      ((Cursor.ofList "x = <input>".toList).advance 4).next).toOption.map
        (fun read => (read.1.name, read.1.isComponent, read.1.terminated, read.2.rest)) =
      some ("input", false, true, []) := by
    decide +kernel
  obtain ⟨⟨header, stop⟩, read, same⟩ := Option.map_eq_some_iff.1 read
  simp only [Prod.mk.injEq] at same
  refine ⟨by decide +kernel, ⟨_, header, stop, ⟨.refl, by decide +kernel, .refl⟩,
    Outcome.eq_ok_of_toOption read, same⟩, ?_, ?_⟩
  · exact Outcome.eq_ok_of_toOption (by decide +kernel)
  · exact Outcome.eq_ok_of_toOption (by decide +kernel)

end InlineMarkup
