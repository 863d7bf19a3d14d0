import InlineMarkup.Markup.Error

/-!
# InlineMarkup.Failure

Why a run of the compiler fails.
-/

namespace InlineMarkup

/-- Why a run of the compiler fails; each cause names the path concerned. -/
inductive Failure where
  /-- A file is there and cannot be read as text. -/
  | unreadable (path : String)
  /-- A settings file is not valid. -/
  | malformedSettings (path : String)
  /-- The part of a settings file on the code written is not valid. -/
  | malformedConfig (path : String)
  /-- A path given leads nowhere. -/
  | notFound (path : String)
  /-- The extension of outputs holds a slash. -/
  | invalidExtension (extension : String)
  /-- The output of a source would replace it. -/
  | overwritesInput (path : String)
  /-- A source holds faulty markup. -/
  | faultyMarkup (path : String) (fault : Error)
  /-- A directory for an output cannot be made. -/
  | uncreatable (path : String)
  /-- An output cannot be written. -/
  | unwritable (path : String)
deriving DecidableEq, Inhabited

/-- The failure in words. -/
def Failure.message : Failure → String
  | unreadable path => s!"Failed to read {path}"
  | malformedSettings path => s!"Failed to parse {path}"
  | malformedConfig path => s!"Failed to parse [jsx] in {path}"
  | notFound path => s!"Path not found: {path}"
  | invalidExtension extension => s!"Invalid extension: {extension}"
  | overwritesInput path => s!"Refusing to overwrite input {path} with its compiled output"
  | faultyMarkup path _ => s!"Failed to compile {path}"
  | uncreatable path => s!"Failed to create {path}"
  | unwritable path => s!"Failed to write {path}"

end InlineMarkup
