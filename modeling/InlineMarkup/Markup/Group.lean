import InlineMarkup.Text.Cursor
import InlineMarkup.Text.Trim

/-!
# InlineMarkup.Markup.Group

Code in braces.  A group ends at the brace that balances the one it starts
with; braces are counted and nothing else is looked at, so an apostrophe in
text inside the group cannot hide its end.
-/

namespace InlineMarkup

/-- Code in braces. -/
structure Group where
  /-- The code between the braces, as written. -/
  code : List Char
  /-- Whether the closing brace was there. -/
  closed : Bool
  /-- The place of the opening brace. -/
  start : Position
  /-- The cursor after the group. -/
  cursor : Cursor

namespace Group

/-- Reads the group whose opening brace is the next character. -/
def read (cur : Cursor) : Group :=
  let body := cur.next.read Text.readGroup 0
  ⟨body.text, body.ended, cur.position, body.cursor⟩

/-- The code without white space around it. -/
def trimmed (group : Group) : String := String.ofList (Text.trim group.code)

theorem reaches_read (cur : Cursor) : cur.next.Reaches (read cur).cursor :=
  Cursor.reaches_read cur.next Text.readGroup 0

end Group

/-! ## Comments in code -/

/-- The text after the comment it starts with, if it starts with one.  A
comment that is never closed reaches to the end. -/
def afterComment? : List Char → Option (List Char)
  | '/' :: '/' :: rest => some (Text.dropPast (Text.readPast '\n' none) none rest)
  | '/' :: '*' :: rest => some (Text.dropPast (Text.readPast '/' (some '*')) none rest)
  | _ => none

theorem length_afterComment? {text rest : List Char} (h : afterComment? text = some rest) :
    rest.length < text.length := by
  unfold afterComment? at h
  split at h
  next body =>
    obtain rfl := Option.some.inj h
    have := Text.length_dropPast_le (Text.readPast '\n' none) none body
    simp only [List.length_cons]; omega
  next body =>
    obtain rfl := Option.some.inj h
    have := Text.length_dropPast_le (Text.readPast '/' (some '*')) none body
    simp only [List.length_cons]; omega
  next => contradiction

/-- Whether code consists of comments and white space only. -/
def isCommentOnly (code : List Char) : Bool :=
  match _found : afterComment? (Text.trimStart code) with
  | some rest => isCommentOnly rest
  | none => (Text.trimStart code).isEmpty
termination_by code.length
decreasing_by
  have shorter := length_afterComment? _found
  have trimmed := Text.length_trimStart_le code
  omega

end InlineMarkup
