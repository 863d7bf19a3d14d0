import InlineMarkup.Host
import InlineMarkup.Markup.Assembly
import InlineMarkup.Markup.Content

/-!
# InlineMarkup.Markup.Fragment

Markup fragments and the code they stand in.  A fragment is read tag by tag,
each tag with the content after it, into an assembly of open nodes, until its
root is closed.  Code inside a fragment may hold fragments of its own; it is
cut into pieces by `split`, which reads fragments in turn.

* `readOn` is the loop over tags; it ends because every tag is at least one
  character long.
* `split` calls itself on the code inside braces only, which is shorter than
  the text around it.
-/

namespace InlineMarkup

open Unicode (isSpace)

namespace Fragment

/-- What stays the same while a fragment is read. -/
structure Reader where
  /-- How nodes are made. -/
  maker : NodeMaker
  /-- How faults are handled. -/
  mode : Mode
  /-- How code that holds markup is cut into pieces. -/
  cut : String → Except Error (List Piece)

/-! ## Code inside tags and content -/

/-- An attribute value with its code cut into pieces, if it holds markup. -/
def nestValue (reader : Reader) : AttrValue → Except Error AttrValue
  | .expression code =>
    if Host.containsMarkup code.toList then do
      let pieces ← reader.cut code
      .ok (.nested code pieces)
    else .ok (.expression code)
  | value => .ok value

/-- Attributes with the code of their values cut into pieces. -/
def nestAttributes (reader : Reader) (attributes : Attributes) : Except Error Attributes :=
  attributes.mapM fun entry => do
    let value ← nestValue reader entry.2
    .ok (entry.1, value)

/-- Adds content: code that holds markup stands for itself, and the segments
between such code, of which `run` was met, latest first, form texts. -/
def addSegments (reader : Reader) (run : List Segment) (assembly : Assembly) :
    List Segment → Except Error Assembly
  | [] => .ok (assembly.addText reader.maker run.reverse)
  | .expression code :: rest =>
    if Host.containsMarkup code.toList then do
      let pieces ← reader.cut code
      let before := assembly.addText reader.maker run.reverse
      addSegments reader [] (before.addEmbedded reader.maker code pieces) rest
    else addSegments reader (.expression code :: run) assembly rest
  | segment :: rest => addSegments reader (segment :: run) assembly rest

/-! ## Tags -/

/-- What came of reading a tag. -/
structure Turn where
  /-- Whether content follows. -/
  goesOn : Bool
  /-- The tree with the tag in it. -/
  assembly : Assembly
  /-- The cursor after the tag. -/
  cursor : Cursor

/-- Reads the opening tag at the cursor. -/
def readOpening (reader : Reader) (assembly : Assembly) (cur : Cursor) : Except Error Turn :=
  match Header.read reader.mode cur.next with
  | .error fault => .error fault
  | .ok (header, after) => do
    let attributes ← nestAttributes reader header.attributes
    let (outcome, assembly) :=
      assembly.openTag reader.maker { header with attributes := attributes }
    .ok ⟨header.terminated && outcome != .root, assembly, after⟩

/-- The fault of a closing tag for `name` at `position`, with the innermost
open node called `current`. -/
def closingFault? (name : String) (position : Position) : Option String → Option Error
  | none => some (.unmatchedClosingTag name position)
  | some current =>
    if current ≠ name ∧ !Name.isVoid name then some (.mismatchedClosingTag current name position)
    else none

/-- Reads the closing tag at the cursor. -/
def readClosing (reader : Reader) (assembly : Assembly) (cur : Cursor) : Except Error Turn :=
  let start := (cur.advance 2).skipSpace
  let word := start.rest.takeWhile fun c => c != '>' && !isSpace c
  let name := String.ofList word
  let ending := (start.advance word.length).readPast '>' none
  let (closed, closedAssembly) := assembly.closeTag name
  let turn : Turn := ⟨closed == .inner || closed == .ignoredVoid, closedAssembly, ending.cursor⟩
  match reader.mode with
  | .lenient => .ok turn
  | .strict =>
    if ending.ended then
      match closingFault? name cur.position assembly.currentName? with
      | some fault => .error fault
      | none => .ok turn
    else .error (.unterminatedTag ("/" ++ name) cur.position)

/-- Reads the tag at the cursor. -/
def readTag (reader : Reader) (assembly : Assembly) (cur : Cursor) : Except Error Turn :=
  if cur.peekAt? 1 = some '/' then readClosing reader assembly cur
  else readOpening reader assembly cur

theorem reaches_readOpening {reader : Reader} {assembly : Assembly} {cur : Cursor} {turn : Turn}
    (h : readOpening reader assembly cur = .ok turn) : cur.next.Reaches turn.cursor := by
  unfold readOpening at h
  split at h
  · contradiction
  · next header after hread =>
    cases hn : nestAttributes reader header.attributes with
    | error => simp [hn, bind, Except.bind] at h
    | ok attributes =>
      simp only [hn, bind, Except.bind, Except.ok.injEq] at h
      subst h
      exact Header.reaches_read hread

theorem reaches_readClosing {reader : Reader} {assembly : Assembly} {cur : Cursor} {turn : Turn}
    (h : readClosing reader assembly cur = .ok turn) : cur.next.Reaches turn.cursor := by
  have ahead : cur.next.Reaches (cur.advance 2) := ⟨1, by simp [Cursor.next]⟩
  have ending (n : Nat) : cur.next.Reaches
      (((cur.advance 2).skipSpace.advance n).readPast '>' none).cursor :=
    ((ahead.trans (Cursor.reaches_skipSpace _)).trans (.advance n _)).trans
      (Cursor.reaches_read _ _ _)
  unfold readClosing at h
  simp only [] at h
  repeat' split at h
  all_goals first | contradiction | (cases h; exact ending _)

/-- Reading a tag reads a character at least. -/
theorem reaches_readTag {reader : Reader} {assembly : Assembly} {cur : Cursor} {turn : Turn}
    (h : readTag reader assembly cur = .ok turn) : cur.next.Reaches turn.cursor := by
  unfold readTag at h
  split at h
  · exact reaches_readClosing h
  · exact reaches_readOpening h

/-- Reads the content after a tag, then the next tag with the content after
it, and so on until the root is closed or the text ends. -/
def readOn (reader : Reader) : Turn → Except Error (Assembly × Cursor)
  | ⟨false, assembly, cur⟩ => .ok (assembly, cur)
  | ⟨true, assembly, cur⟩ =>
    match _content : Content.read reader.mode cur with
    | .error fault => .error fault
    | .ok (segments, after) =>
      match addSegments reader [] assembly segments with
      | .error fault => .error fault
      | .ok assembly =>
        if _ended : after.rest = [] then .ok (assembly, after)
        else
          match _taken : readTag reader assembly after with
          | .error fault => .error fault
          | .ok turn => readOn reader turn
termination_by turn => turn.cursor.rest.length
decreasing_by
  have tag := (reaches_readTag _taken).length_le
  have content := (Content.reaches_read _content).length_le
  have one := Cursor.length_next_lt _ended
  omega

/-- Reads the fragment whose `<` is at the cursor: its root, and the cursor
after it. -/
def readRoot (reader : Reader) (cur : Cursor) : Except Error (Option Node × Cursor) := do
  let turn ← readOpening reader .empty cur
  let (assembly, after) ← readOn reader turn
  match reader.mode, assembly.currentName? with
  | .strict, some tag => .error (.unclosedElement tag after.position)
  | _, _ => .ok (assembly.finish, after)

theorem reaches_readOn {reader : Reader} {turn : Turn} {result : Assembly} {after : Cursor}
    (h : readOn reader turn = .ok (result, after)) : turn.cursor.Reaches after := by
  fun_induction readOn reader turn with
  | case1 assembly cur => cases h; exact .refl _
  | case2 => contradiction
  | case3 => contradiction
  | case4 assembly cur segments stop content => cases h; exact Content.reaches_read content
  | case5 => contradiction
  | case6 assembly cur segments stop content _ _ _ turn taken ih =>
    have tag := (Cursor.reaches_next stop).trans (reaches_readTag taken)
    exact ((Content.reaches_read content).trans tag).trans (ih h)

/-- A fragment is a character long at least. -/
theorem reaches_readRoot {reader : Reader} {cur after : Cursor} {root : Option Node}
    (h : readRoot reader cur = .ok (root, after)) : cur.next.Reaches after := by
  unfold readRoot at h
  cases ho : readOpening reader .empty cur with
  | error => simp [ho, bind, Except.bind] at h
  | ok turn =>
    simp only [ho, bind, Except.bind] at h
    cases hr : readOn reader turn with
    | error => simp [hr] at h
    | ok read =>
      obtain ⟨assembly, stop⟩ := read
      simp only [hr] at h
      split at h
      · contradiction
      · cases h
        exact (reaches_readOpening ho).trans (reaches_readOn hr)

end Fragment

/-! ## Fragments in code -/

/-- A fragment found in code. -/
structure Fragment where
  /-- The cursor before it. -/
  start : Cursor
  /-- The cursor after it. -/
  stop : Cursor
  /-- The tree it stands for. -/
  root : Node

namespace Fragment

/-- The fragment as written. -/
def source (fragment : Fragment) : List Char := fragment.start.between fragment.stop

/-- The first fragment at the cursor or after it. -/
def nextWith (reader : Reader) (cur : Cursor) : Except Error (Option Fragment) :=
  match _found : Host.seek cur with
  | none => .ok none
  | some start =>
    match readRoot reader start with
    | .error fault => .error fault
    | .ok (some root, stop) => .ok (some ⟨start, stop, root⟩)
    | .ok (none, _) => nextWith reader start.next
termination_by cur.rest.length
decreasing_by
  obtain ⟨ahead, c, more, begins, _⟩ := Host.seek_sound _found
  have := ahead.length_le
  have := Cursor.length_next_lt (show start.rest ≠ [] by simp [begins])
  omega

theorem length_nextWith {reader : Reader} {cur : Cursor} {fragment : Fragment}
    (h : nextWith reader cur = .ok (some fragment)) :
    fragment.stop.rest.length < cur.rest.length := by
  fun_induction nextWith reader cur with
  | case1 => simp at h
  | case2 => simp at h
  | case3 cur start found root stop read =>
    obtain ⟨ahead, c, more, begins, _⟩ := Host.seek_sound found
    have := ahead.length_le
    have := Cursor.length_next_lt (show start.rest ≠ [] by simp [begins])
    have := (reaches_readRoot read).length_le
    cases h
    simp only []
    omega
  | case4 cur start found _ _ ih =>
    have := (Host.seek_sound found).1.length_le
    have := (Cursor.reaches_next start).length_le
    have := ih h
    omega

/-- The code between two cursors as a piece, unless it is empty. -/
def codePieces (code : List Char) : List Piece :=
  if code.isEmpty then [] else [.code (String.ofList code)]

/-- The rest of a text cut into code and fragments. -/
def splitWith (reader : Reader) (cur : Cursor) : Except Error (List Piece) :=
  match _found : nextWith reader cur with
  | .error fault => .error fault
  | .ok none => .ok (codePieces cur.rest)
  | .ok (some fragment) => do
    let following ← splitWith reader fragment.stop
    .ok (codePieces (cur.between fragment.start) ++ .markup fragment.root :: following)
termination_by cur.rest.length
decreasing_by exact length_nextWith _found

/-- Code cut into code without markup and fragments, in order.  The code
inside a fragment is cut in the same way; it is shorter than `code`. -/
def split (maker : NodeMaker) (mode : Mode) (code : String) : Except Error (List Piece) :=
  let cut (inner : String) : Except Error (List Piece) :=
    if _shorter : inner.length < code.length then split maker mode inner
    else .ok (codePieces inner.toList)
  splitWith ⟨maker, mode, cut⟩ (.ofList code.toList)
termination_by code.length

/-- Reads fragments, and cuts the code inside them by `split`. -/
def reader (maker : NodeMaker) (mode : Mode) : Reader := ⟨maker, mode, split maker mode⟩

/-- The first fragment at the cursor or after it. -/
def next (maker : NodeMaker) (mode : Mode) (cur : Cursor) : Except Error (Option Fragment) :=
  nextWith (reader maker mode) cur

/-- The tree of a text that is a single fragment.  White space around it is
passed over; strict reading admits nothing else. -/
def parse (maker : NodeMaker) (mode : Mode) (text : String) : Except Error Node := do
  let cur := (Cursor.ofList text.toList).skipSpace
  if Content.tagBegins cur.rest ∧ cur.peekAt? 1 ≠ some '/' then
    let (root, after) ← readRoot (reader maker mode) cur
    let tail := after.skipSpace
    if mode = .strict ∧ !tail.atEnd then .error (.trailingContent tail.position)
    else
      match root with
      | some node => .ok node
      | none => .error .noFragment
  else
    match mode, cur.peek? with
    | .strict, some found => .error (.unexpectedCharacter found cur.position)
    | _, _ => .error .noFragment

end Fragment

end InlineMarkup
