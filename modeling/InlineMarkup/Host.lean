import InlineMarkup.Name
import InlineMarkup.Text.Cursor

/-!
# InlineMarkup.Host

The code around markup.  It is not parsed: strings and comments are passed
over, and a `<` before an identifier starts markup where the code before it
lets an expression begin.  That is decided by the token before it: markup may
follow most punctuation, and a word only if the word is a keyword that takes
an expression.
-/

namespace InlineMarkup.Host

open Unicode (isSpace)

/-- Keywords that an expression may follow. -/
def expressionKeywords : List String :=
  ["return", "yield", "await", "default", "case", "else", "do", "in", "of", "typeof", "void",
    "delete", "throw"]

/-- The token before a place in code, as far as it matters. -/
structure Context where
  /-- Its last character; white space and comments are not tokens. -/
  last : Option Char
  /-- The last word, which is the token if `last` can stand in a word. -/
  word : String
deriving DecidableEq

namespace Context

/-- No token. -/
def empty : Context := ⟨none, ""⟩

/-- Whether an expression may begin after the token.  A slash divides or opens
a regular expression, and neither is followed by markup. -/
def allowsMarkup (context : Context) : Bool :=
  match context.last with
  | none => true
  | some c =>
    if Name.isPart c then expressionKeywords.contains context.word
    else c != ')' && c != ']' && c != '/' && c != '\'' && c != '"' && c != '\x60'

/-- The context after a further character `c` of code, itself after
`previous`: a word goes on if `previous` belongs to one. -/
def push (context : Context) (previous : Option Char) (c : Char) : Context where
  last := some c
  word :=
    if Name.isPart c then
      if previous.any Name.isPart then context.word.push c else String.singleton c
    else context.word

end Context

/-- The first place, at the cursor or after it, where markup starts. -/
def seekFrom (context : Context) (cur : Cursor) : Option Cursor :=
  match _more : cur.rest with
  | [] => none
  | c :: following =>
    if c = '\'' ∨ c = '"' ∨ c = '\x60' then
      seekFrom { context with last := some c } (cur.next.read (Text.readString c) false).cursor
    else if c = '/' ∧ following.head? = some '/' then
      seekFrom context (cur.next.readPast '\n' none).cursor
    else if c = '/' ∧ following.head? = some '*' then
      seekFrom context ((cur.advance 2).readPast '/' (some '*')).cursor
    else if c = '<' ∧ following.head?.any Name.isStart ∧ context.allowsMarkup then some cur
    else if isSpace c then seekFrom context cur.next
    else seekFrom (context.push cur.previous? c) cur.next
termination_by cur.rest.length
decreasing_by
  all_goals
    have more : cur.rest ≠ [] := by simp [_more]
    have one := Cursor.length_next_lt more
  · exact Nat.lt_of_le_of_lt (Cursor.reaches_read _ _ _).length_le one
  · exact Nat.lt_of_le_of_lt (Cursor.reaches_read _ _ _).length_le one
  · have two : (cur.advance 2).rest.length ≤ cur.next.rest.length := by
      simp only [Cursor.next, Cursor.rest_advance, List.length_drop]; omega
    exact Nat.lt_of_le_of_lt (Nat.le_trans (Cursor.reaches_read _ _ _).length_le two) one
  · exact one
  · exact one

/-- The first place, at the cursor or after it, where markup starts; the code
before the cursor does not count. -/
def seek (cur : Cursor) : Option Cursor := seekFrom .empty cur

/-- Whether code holds markup. -/
def containsMarkup (code : List Char) : Bool := (seek (.ofList code)).isSome

/-! ## Where markup starts -/

/-- What begins markup: a `<` before an identifier. -/
def MarkupStart (rest : List Char) : Prop := ∃ c more, rest = '<' :: c :: more ∧ Name.isStart c

/-- A place found lies ahead, and markup starts there. -/
theorem seekFrom_sound {context : Context} {cur found : Cursor}
    (h : seekFrom context cur = some found) : cur.Reaches found ∧ MarkupStart found.rest := by
  fun_induction seekFrom context cur with
  | case1 => contradiction
  | case2 context cur c following more _ ih =>
    exact ⟨(cur.reaches_advance_read 1 _ _).trans (ih h).1, (ih h).2⟩
  | case3 context cur c following more _ _ ih =>
    exact ⟨(cur.reaches_advance_read 1 _ _).trans (ih h).1, (ih h).2⟩
  | case4 context cur c following more _ _ _ ih =>
    exact ⟨(cur.reaches_advance_read 2 _ _).trans (ih h).1, (ih h).2⟩
  | case5 context cur c following more _ _ _ start =>
    obtain rfl := Option.some.inj h
    refine ⟨.refl cur, ?_⟩
    obtain ⟨rfl, named, _⟩ := start
    cases following with
    | nil => simp at named
    | cons d rest => exact ⟨d, rest, more, by simpa using named⟩
  | case6 context cur c following more _ _ _ _ _ ih =>
    exact ⟨(Cursor.reaches_next cur).trans (ih h).1, (ih h).2⟩
  | case7 context cur c following more _ _ _ _ _ ih =>
    exact ⟨(Cursor.reaches_next cur).trans (ih h).1, (ih h).2⟩

theorem seek_sound {cur found : Cursor} (h : seek cur = some found) :
    cur.Reaches found ∧ MarkupStart found.rest :=
  seekFrom_sound h

end InlineMarkup.Host
