import InlineMarkup.Toml.DateTime

/-!
# InlineMarkup.Toml.Value

The values of a TOML document.  Numbers other than integers keep their
spelling: nothing here computes with them.
-/

namespace InlineMarkup.Toml

/-- How a table came to be, which decides what may be added to it. -/
inductive Origin where
  /-- Written in braces; it is complete. -/
  | braces
  /-- Named by a header of its own. -/
  | header
  /-- On the way to a table named by a header. -/
  | path
  /-- On the way to a key with dots in it. -/
  | dots
deriving DecidableEq, Inhabited

/-- A value. -/
inductive Value where
  | string (text : String)
  | integer (value : Int)
  | float (spelling : String)
  | boolean (value : Bool)
  | dateTime (value : DateTime)
  | array (items : List Value)
  | table (origin : Origin) (entries : List (String × Value))
  /-- An array of tables, each begun by a header; the last one comes first. -/
  | tables (items : List (List (String × Value)))
deriving Inhabited

/-- The entries of a table, in the order in which they were made. -/
abbrev Entries := List (String × Value)

namespace Value

/-- The entries of a value that is a table. -/
def entries? : Value → Option Entries
  | table _ entries => some entries
  | _ => none

/-- The text of a value that is a string. -/
def string? : Value → Option String
  | string text => some text
  | _ => none

/-- The text of a value that is a string or a date-time. -/
def text? : Value → Option String
  | string text => some text
  | dateTime value => some value.text
  | _ => none

end Value

end InlineMarkup.Toml
