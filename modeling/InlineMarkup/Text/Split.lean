/-!
# InlineMarkup.Text.Split

Texts cut at a separator.
-/

namespace InlineMarkup.Text

/-- The parts of a text after `part`, the beginning of the first one, nearest
first. -/
def splitFrom (separator : Char) (part : List Char) : List Char → List (List Char)
  | [] => [part.reverse]
  | c :: rest =>
    if c = separator then part.reverse :: splitFrom separator [] rest
    else splitFrom separator (c :: part) rest

/-- The parts of a text between separators: one more than there are
separators. -/
def splitAt (separator : Char) (text : List Char) : List (List Char) :=
  splitFrom separator [] text

end InlineMarkup.Text
