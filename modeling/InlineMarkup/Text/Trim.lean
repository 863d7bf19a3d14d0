import InlineMarkup.Unicode.Space

/-!
# InlineMarkup.Text.Trim

Texts without the white space around them.
-/

namespace InlineMarkup.Text

open Unicode (isSpace)

/-- A text without its leading white space. -/
def trimStart (text : List Char) : List Char := text.dropWhile isSpace

/-- A text without its trailing white space. -/
def trimEnd (text : List Char) : List Char := (text.reverse.dropWhile isSpace).reverse

/-- A text without the white space around it. -/
def trim (text : List Char) : List Char := trimEnd (trimStart text)

theorem length_trimStart_le (text : List Char) : (trimStart text).length ≤ text.length :=
  (List.dropWhile_sublist isSpace).length_le

theorem length_trimEnd_le (text : List Char) : (trimEnd text).length ≤ text.length := by
  have := length_trimStart_le text.reverse
  simpa [trimEnd, trimStart] using this

/-- Trimming never lengthens a text. -/
theorem length_trim_le (text : List Char) : (trim text).length ≤ text.length :=
  Nat.le_trans (length_trimEnd_le _) (length_trimStart_le text)

end InlineMarkup.Text
