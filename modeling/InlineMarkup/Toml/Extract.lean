import InlineMarkup.Toml.Value

/-!
# InlineMarkup.Toml.Extract

Values taken out of a document.  Outside of it an array of tables is an array
like any other, and a table whose first key is `dateKey` is the date-time that
the value of this key spells; its other keys do not count.  If the value
spells none, there is nothing to take out.
-/

namespace InlineMarkup.Toml

/-- The key that makes a date-time of a table. -/
def dateKey : String := "$__toml_private_datetime"

/-- The date-time that a value spells. -/
def spelled? : Value → Option Value
  | .string text => (DateTime.ofChars? text.toList).map .dateTime
  | _ => none

mutual

/-- A value outside of its document. -/
def extract? : Value → Option Value
  | .array items => (extractItems? items).map .array
  | .table origin entries => extractTable? origin entries
  | .tables items => (extractTables? items).map fun tables => .array tables.reverse
  | value => some value

/-- The items of an array. -/
def extractItems? : List Value → Option (List Value)
  | [] => some []
  | item :: rest => do
    let item ← extract? item
    let rest ← extractItems? rest
    some (item :: rest)

/-- A table, or the date-time that it stands for. -/
def extractTable? (origin : Origin) : List (String × Value) → Option Value
  | [] => some (.table origin [])
  | (key, value) :: rest =>
    if key = dateKey then spelled? value
    else do
      let value ← extract? value
      let rest ← extractEntries? rest
      some (.table origin ((key, value) :: rest))

/-- The entries of a table that is one. -/
def extractEntries? : List (String × Value) → Option (List (String × Value))
  | [] => some []
  | (key, value) :: rest => do
    let value ← extract? value
    let rest ← extractEntries? rest
    some ((key, value) :: rest)

/-- The tables of an array of tables. -/
def extractTables? : List (List (String × Value)) → Option (List Value)
  | [] => some []
  | entries :: rest => do
    let table ← extractTable? .header entries
    let rest ← extractTables? rest
    some (table :: rest)

end

end InlineMarkup.Toml
