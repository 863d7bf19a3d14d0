import InlineMarkup.Config
import InlineMarkup.Toml.Extract
import InlineMarkup.Toml.Parser

/-!
# InlineMarkup.Settings

Settings files.  The table `jsx` says what the code written looks like, and
the table `output` where it goes; keys that are not known are passed over, and
a key that is known must have a value of its type.
-/

namespace InlineMarkup

namespace Config

open Toml

/-- A setting that is a text, unless it is missing; `text?` says which values
are texts. -/
def textSetting? (text? : Value → Option String) (entries : Entries) (key missing : String) :
    Option String :=
  match entries.lookup key with
  | none => some missing
  | some value => text? value

/-- A setting that may be a text. -/
def optionalSetting? (text? : Value → Option String) (entries : Entries) (key : String) :
    Option (Option String) :=
  match entries.lookup key with
  | none => some none
  | some value => (text? value).map some

/-- A setting that is a truth value, unless it is missing. -/
def booleanSetting? (entries : Entries) (key : String) (missing : Bool) : Option Bool :=
  match entries.lookup key with
  | none => some missing
  | some (.boolean value) => some value
  | some _ => none

/-- The mode of a name. -/
def modeNamed? (name : String) : Option Mode :=
  if name = "lenient" then some .lenient
  else if name = "strict" then some .strict
  else none

/-- The setting of the mode: its name, or a table whose one key is its name and
holds nothing. -/
def modeSetting? (entries : Entries) : Option Mode :=
  match entries.lookup "mode" with
  | none => some .lenient
  | some (.string name) => modeNamed? name
  | some (.table _ [(name, .table _ [])]) => modeNamed? name
  | some (.table _ [(name, .array [])]) => modeNamed? name
  | some _ => none

/-- The settings that entries give; `text?` says which values are texts. -/
def read? (text? : Value → Option String) (entries : Entries) : Option Config := do
  return {
    element := ← textSetting? text? entries "element" standard.element
    component := ← textSetting? text? entries "component" standard.component
    text := ← optionalSetting? text? entries "text"
    indent := ← textSetting? text? entries "indent" standard.indent
    mode := ← modeSetting? entries
    pragma := ← booleanSetting? entries "pragma" standard.pragma }

/-- The settings that a document gives.  Its texts are strings. -/
def ofToml? (document : String) : Option Config := parse? document >>= read? Value.string?

/-- The settings that a table taken out of a document gives.  A date-time in it
counts as the text that it is written as. -/
def ofEntries? (entries : Entries) : Option Config := read? Value.text? entries

/-- Why a section of a document gives no settings. -/
inductive SectionFault where
  /-- The document, or what the section sets, is not valid. -/
  | malformed
  /-- There is no such table. -/
  | missing
deriving DecidableEq

/-- The settings in the table of a document that has a certain name. -/
def ofSection (document name : String) : Except SectionFault Config :=
  match parse? document >>= extractEntries? with
  | none => .error .malformed
  | some entries =>
    match entries.lookup name >>= Value.entries? with
    | none => .error .missing
    | some inner =>
      match ofEntries? inner with
      | some config => .ok config
      | none => .error .malformed

end Config

/-- Where outputs go. -/
structure OutputSettings where
  /-- The directory they go to, if not that of their source. -/
  directory : Option String
  /-- Their extension. -/
  extension : String
deriving DecidableEq

namespace OutputSettings

open Toml

/-- Where outputs go if nothing is set. -/
def standard : OutputSettings := ⟨none, "js"⟩

/-- Where outputs go, as a value says: a table, an array of directory and
extension, or a date-time, which says nothing. -/
def ofValue? : Value → Option OutputSettings
  | .table _ entries => do
    return ⟨← Config.optionalSetting? Value.string? entries "dir",
      ← Config.textSetting? Value.string? entries "extension" standard.extension⟩
  | .array [.string directory] => some ⟨some directory, standard.extension⟩
  | .array (.string directory :: .string extension :: _) => some ⟨some directory, extension⟩
  | .dateTime _ => some standard
  | _ => none

end OutputSettings

/-- What a settings file sets. -/
structure Settings where
  /-- What the code written looks like. -/
  config : Config
  /-- Where it goes. -/
  output : OutputSettings
deriving DecidableEq

namespace Settings

open Toml

/-- The settings of those who have no settings file. -/
def standard : Settings := ⟨.standard, .standard⟩

/-- What is wrong with a settings file. -/
inductive Fault where
  /-- It is no valid document, or its tables are no tables. -/
  | document
  /-- A setting of the code written is not valid. -/
  | config
deriving DecidableEq

/-- The entries of the table on the code written, taken out of the document; a
date-time stands for an empty one. -/
def configEntries? (entries : Entries) : Option Entries :=
  match entries.lookup "jsx" with
  | none => some []
  | some (.table _ inner) => extractEntries? inner
  | some (.dateTime _) => some []
  | some _ => none

/-- Where outputs go, as a document says. -/
def output? (entries : Entries) : Option OutputSettings :=
  match entries.lookup "output" with
  | none => some .standard
  | some value => OutputSettings.ofValue? value

/-- The settings in the text of a settings file. -/
def ofText (text : String) : Except Fault Settings :=
  match parse? text with
  | none => .error .document
  | some entries =>
    match configEntries? entries, output? entries with
    | some inner, some output =>
      match Config.ofEntries? inner with
      | some config => .ok ⟨config, output⟩
      | none => .error .config
    | _, _ => .error .document

end Settings

end InlineMarkup
