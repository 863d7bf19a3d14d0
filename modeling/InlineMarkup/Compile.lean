import InlineMarkup.Files.Sources
import InlineMarkup.Settings
import InlineMarkup.Translate

/-!
# InlineMarkup.Compile

A run of the compiler: the settings are read, the sources are found, and each
is translated and written.  A source that fails does not keep the others from
being compiled; the failure of the first one is that of the run.
-/

namespace InlineMarkup

/-- What a run is asked to do. -/
structure Options where
  /-- The files and directories to compile. -/
  paths : List String
  /-- The settings file. -/
  settings : String
  /-- The directory for outputs, if given. -/
  outputDirectory : Option String
  /-- The function for elements, if given. -/
  element : Option String
  /-- The function for components, if given. -/
  component : Option String
  /-- The function for texts, if given. -/
  text : Option String
  /-- Whether faults are reported. -/
  strict : Bool
deriving DecidableEq

namespace Compile

/-- The name of the settings file, unless another is given. -/
def settingsFile : String := "jsxc.toml"

/-- The settings of a run: what is asked for goes before what the settings
file says. -/
def effective (options : Options) (config : Config) : Config where
  element := options.element.getD config.element
  component := options.component.getD config.component
  text := options.text <|> config.text
  indent := config.indent
  mode := if options.strict then .strict else config.mode
  pragma := config.pragma

/-- What a settings file with a certain text sets. -/
def settingsOf (path text : String) : Except Failure Settings :=
  match Settings.ofText text with
  | .ok settings => .ok settings
  | .error .document => .error (.malformedSettings path)
  | .error .config => .error (.malformedConfig path)

/-- A source with a certain text, compiled. -/
def compileText (config : Config) (path text : String) : Except Failure String :=
  match Translator.plain.translate config text with
  | .ok output => .ok output
  | .error fault => .error (.faultyMarkup path fault)

section

variable {m : Type → Type} [Monad m] (disk : Disk m)

/-- The settings in a file, if it exists. -/
def readSettings (path : String) : m (Except Failure Settings) := do
  match ← disk.kind? path with
  | none => return .ok .standard
  | some _ =>
    match ← disk.read? path with
    | none => return .error (.unreadable path)
    | some text => return settingsOf path text

/-- Writes an output, in a directory made for it if need be. -/
def writeOutput (output text : String) : m (Except Failure Unit) := do
  match (Path.parent? output).filter (· != "") with
  | some parent =>
    if ← disk.makeDirectories parent then
      return if ← disk.write output text then .ok () else .error (.unwritable output)
    else return .error (.uncreatable parent)
  | none => return if ← disk.write output text then .ok () else .error (.unwritable output)

/-- Compiles a source. -/
def compileSource (config : Config) (source : Source) (output : String) :
    m (Except Failure Unit) := do
  if Path.same output source.path then return .error (.overwritesInput source.path)
  else
    match ← disk.read? source.path with
    | none => return .error (.unreadable source.path)
    | some text =>
      match compileText config source.path text with
      | .error failure => return .error failure
      | .ok compiled => writeOutput disk output compiled

/-- Compiles sources, each with its output, in order; the failure, if any, is
that of the first source that fails. -/
def compileAll (config : Config) : List (Source × String) → m (Except Failure Unit)
  | [] => return .ok ()
  | (source, output) :: rest => do
    let first ← compileSource disk config source output
    let others ← compileAll config rest
    match first with
    | .error failure => return .error failure
    | .ok () => return others

/-- A run of the compiler; the outputs written, in the order of the sources. -/
def run (options : Options) : m (Except Failure (List String)) := do
  match ← readSettings disk options.settings with
  | .error failure => return .error failure
  | .ok settings =>
    match ← Source.collect disk options.paths with
    | .error failure => return .error failure
    | .ok sources =>
      let directory := options.outputDirectory <|> settings.output.directory
      let extension := settings.output.extension
      match sources.mapM fun source => source.output? directory extension with
      | none => return .error (.invalidExtension extension)
      | some outputs =>
        match ← compileAll disk (effective options settings.config) (sources.zip outputs) with
        | .error failure => return .error failure
        | .ok () => return .ok outputs

end

end Compile

end InlineMarkup
