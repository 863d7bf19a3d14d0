import InlineMarkup.Text.Position

/-!
# InlineMarkup.Markup.Error

What can be wrong with markup, and whether that matters.  Strict reading
reports the first fault it meets; lenient reading makes the best of it, and
fails only where there is no markup at all.
-/

namespace InlineMarkup

/-- How malformed markup is handled. -/
inductive Mode where
  /-- Faults are passed over. -/
  | lenient
  /-- The first fault is reported. -/
  | strict
deriving DecidableEq, Inhabited

/-- A fault in markup, with its place. -/
inductive Error where
  /-- The text ends inside a tag. -/
  | unterminatedTag (tag : String) (position : Position)
  /-- The text ends inside an expression. -/
  | unbalancedBraces (position : Position)
  /-- A closing tag stands where nothing is open. -/
  | unmatchedClosingTag (name : String) (position : Position)
  /-- A closing tag has another name than the tag it closes. -/
  | mismatchedClosingTag (expected found : String) (position : Position)
  /-- The text ends before an element is closed. -/
  | unclosedElement (tag : String) (position : Position)
  /-- A character stands where it has no meaning. -/
  | unexpectedCharacter (found : Char) (position : Position)
  /-- Something follows the fragment. -/
  | trailingContent (position : Position)
  /-- There is no markup. -/
  | noFragment
deriving DecidableEq, Inhabited

namespace Error

/-- Where the fault is. -/
def position? : Error → Option Position
  | unterminatedTag _ position => some position
  | unbalancedBraces position => some position
  | unmatchedClosingTag _ position => some position
  | mismatchedClosingTag _ _ position => some position
  | unclosedElement _ position => some position
  | unexpectedCharacter _ position => some position
  | trailingContent position => some position
  | noFragment => none

/-- The fault in words. -/
def message : Error → String
  | unterminatedTag tag position => s!"Unterminated tag `<{tag}` starting at {position.text}"
  | unbalancedBraces position =>
    s!"Unbalanced braces in expression starting at {position.text}"
  | unmatchedClosingTag name position =>
    s!"Unexpected closing tag `</{name}>` at {position.text}"
  | mismatchedClosingTag expected found position =>
    s!"Closing tag `</{found}>` does not match `<{expected}>` at {position.text}"
  | unclosedElement tag position =>
    s!"Element `<{tag}>` is never closed (input ends at {position.text})"
  | unexpectedCharacter found position => s!"Unexpected character `{found}` at {position.text}"
  | trailingContent position => s!"Unexpected content after fragment at {position.text}"
  | noFragment => "No markup fragment found"

end Error

end InlineMarkup
