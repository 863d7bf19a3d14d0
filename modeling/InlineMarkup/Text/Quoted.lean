/-!
# InlineMarkup.Text.Quoted

String literals of the code that is written: text between single quotes, in
which a backslash, a single quote, a line feed and a carriage return are each
written as a backslash and a letter or sign, and all else as itself.
-/

namespace InlineMarkup.Text

/-- A character as it stands between the quotes. -/
def escape (c : Char) : List Char :=
  if c = '\\' then ['\\', '\\']
  else if c = '\'' then ['\\', '\'']
  else if c = '\n' then ['\\', 'n']
  else if c = '\r' then ['\\', 'r']
  else [c]

/-- A text as a string literal. -/
def quoted (text : List Char) : List Char := '\'' :: text.flatMap escape ++ ['\'']

/-- A text as a string literal. -/
def quote (text : String) : String := String.ofList (quoted text.toList)

end InlineMarkup.Text
