import InlineMarkup.Markup.Error
import InlineMarkup.Markup.Group
import InlineMarkup.Markup.Literal
import InlineMarkup.Markup.Node
import InlineMarkup.Name

/-!
# InlineMarkup.Markup.Content

The text between two tags: literal text, code in braces, and comments, which
are dropped.  `Lead` names what can begin at a cursor, and `read` goes from
one beginning to the next until a tag or the end of the text.
-/

namespace InlineMarkup.Content

open Unicode (isSpace)

/-- Whether a tag, opening or closing, begins with the characters given. -/
def tagBegins : List Char → Bool
  | '<' :: c :: _ => c == '/' || Name.isStart c
  | _ => false

/-- What begins at a cursor between tags. -/
inductive Lead where
  /-- A tag, or the end of the text. -/
  | stop
  /-- A comment from `<!--` to `-->`. -/
  | markupComment
  /-- A declaration from `<!` to `>`. -/
  | declaration
  /-- Code in braces. -/
  | group
  /-- A comment from `/*` to `*/`. -/
  | blockComment
  /-- A comment from `//` to the end of the line. -/
  | lineComment
  /-- A character of literal text. -/
  | character (c : Char)
deriving DecidableEq

/-- Whether `//` after `previous` begins a comment: not in the middle of a
word, so that addresses stay text. -/
def lineCommentAfter (previous : Option Char) : Bool :=
  previous.all fun c => isSpace c || c == '>' || c == '\x7d'

/-- What begins with the characters `rest`, after `previous`. -/
def lead (previous : Option Char) (rest : List Char) : Lead :=
  match rest with
  | [] => .stop
  | '<' :: following =>
    if ['!', '-', '-'].isPrefixOf following then .markupComment
    else if following.head? = some '!' then .declaration
    else if tagBegins rest then .stop
    else .character '<'
  | '\x7b' :: _ => .group
  | '/' :: following =>
    if following.head? = some '*' then .blockComment
    else if following.head? = some '/' ∧ lineCommentAfter previous then .lineComment
    else .character '/'
  | c :: _ => .character c

theorem rest_ne_nil_of_lead {previous : Option Char} {rest : List Char}
    (h : lead previous rest ≠ .stop) : rest ≠ [] := by
  rintro rfl
  exact h rfl

/-- Adds the literal text `pending`, nearest first, to the segments before it,
latest first. -/
def flush (pending : List Char) (segments : List Segment) : List Segment :=
  if pending.isEmpty then segments
  else
    match Literal.normalize pending.reverse with
    | some text => .literal (String.ofList text) :: segments
    | none => segments

/-- Reads on, after the literal text `pending`, nearest first, and the
segments before it, latest first. -/
def readFrom (mode : Mode) (pending : List Char) (segments : List Segment) (cur : Cursor) :
    Except Error (List Segment × Cursor) :=
  match _begins : lead cur.previous? cur.rest with
  | .stop => .ok ((flush pending segments).reverse, cur)
  | .markupComment =>
    readFrom mode pending segments ((cur.advance 4).read Text.readMarkupComment 1).cursor
  | .declaration => readFrom mode pending segments (cur.next.readPast '>' none).cursor
  | .group =>
    let group := Group.read cur
    if group.closed = false ∧ mode = .strict then .error (.unbalancedBraces group.start)
    else
      let segments := flush pending segments
      if isCommentOnly group.code then readFrom mode [] segments group.cursor
      else readFrom mode [] (.expression group.trimmed :: segments) group.cursor
  | .blockComment =>
    readFrom mode pending segments ((cur.advance 2).readPast '/' (some '*')).cursor
  | .lineComment =>
    let comment := cur.next.readPast '\n' none
    readFrom mode (if comment.ended then '\n' :: pending else pending) segments comment.cursor
  | .character c => readFrom mode (c :: pending) segments cur.next
termination_by cur.rest.length
decreasing_by
  all_goals
    have more := rest_ne_nil_of_lead (by rw [_begins]; simp)
    have one := Cursor.length_next_lt more
    have ahead (n : Nat) : (cur.advance (n + 1)).rest.length ≤ cur.next.rest.length := by
      simp only [Cursor.next, Cursor.rest_advance, List.length_drop]; omega
  · exact Nat.lt_of_le_of_lt (Nat.le_trans (Cursor.reaches_read _ _ _).length_le (ahead 3)) one
  · exact Nat.lt_of_le_of_lt (Cursor.reaches_read _ _ _).length_le one
  · exact Nat.lt_of_le_of_lt (Group.reaches_read cur).length_le one
  · exact Nat.lt_of_le_of_lt (Group.reaches_read cur).length_le one
  · exact Nat.lt_of_le_of_lt (Nat.le_trans (Cursor.reaches_read _ _ _).length_le (ahead 1)) one
  · exact Nat.lt_of_le_of_lt (Cursor.reaches_read _ _ _).length_le one
  · exact one

/-- Reads the content at the cursor, up to a tag or the end of the text. -/
def read (mode : Mode) (cur : Cursor) : Except Error (List Segment × Cursor) :=
  readFrom mode [] [] cur

theorem reaches_readFrom {mode : Mode} {pending : List Char} {segments result : List Segment}
    {cur after : Cursor} (h : readFrom mode pending segments cur = .ok (result, after)) :
    cur.Reaches after := by
  have step {cur later : Cursor} : cur.next.Reaches later → cur.Reaches later :=
    (Cursor.reaches_next cur).trans
  fun_induction readFrom mode pending segments cur with
  | case1 => cases h; exact .refl _
  | case2 _ _ cur _ ih => exact (cur.reaches_advance_read 4 _ _).trans (ih h)
  | case3 _ _ cur _ ih => exact (cur.reaches_advance_read 1 _ _).trans (ih h)
  | case4 => contradiction
  | case5 _ _ cur _ _ _ _ _ ih => exact step ((Group.reaches_read cur).trans (ih h))
  | case6 _ _ cur _ _ _ _ _ ih => exact step ((Group.reaches_read cur).trans (ih h))
  | case7 _ _ cur _ ih => exact (cur.reaches_advance_read 2 _ _).trans (ih h)
  | case8 _ _ cur _ _ ih => exact (cur.reaches_advance_read 1 _ _).trans (ih h)
  | case9 _ _ cur _ _ ih => exact step (ih h)

/-- Reading content only moves forward. -/
theorem reaches_read {mode : Mode} {cur after : Cursor} {segments : List Segment}
    (h : read mode cur = .ok (segments, after)) : cur.Reaches after :=
  reaches_readFrom h

end InlineMarkup.Content
