import InlineMarkup.Text.Split
import InlineMarkup.Text.Trim

/-!
# InlineMarkup.Markup.Literal

White space in literal text.  Text on one line is kept as written.  Text that
spans lines is read as running text: the line breaks and the white space
around them, which only lay out the source, count as one space between words
and as nothing elsewhere.
-/

namespace InlineMarkup.Literal

open Text

/-- The lines of a text: it is cut at every line feed, so a text that ends in
one has an empty last line. -/
def lines (text : List Char) : List (List Char) := splitAt '\n' text

/-- The lines after the first without the white space that lays them out: the
last one keeps what stands at its end. -/
def trimFollowing : List (List Char) → List (List Char)
  | [] => []
  | [last] => [trimStart last]
  | line :: rest => trim line :: trimFollowing rest

/-- Literal text as it is shown; `none` if nothing of it is. -/
def normalize (raw : List Char) : Option (List Char) :=
  match lines raw with
  | first :: second :: rest =>
    match (trimEnd first :: trimFollowing (second :: rest)).filter (!·.isEmpty) with
    | [] => none
    | kept => some ([' '].intercalate kept)
  | _ => some raw

end InlineMarkup.Literal
