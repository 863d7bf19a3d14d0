import InlineMarkup.Compile

/-!
# InlineMarkup.CommandLine

The arguments of the command.  They are read from left to right, and the first
one that cannot be read, or that asks for information, ends the reading.  Paths
and options may be mixed; two dashes end the options.
-/

namespace InlineMarkup.CommandLine

/-- An option that takes a value. -/
inductive Setting where
  | settings
  | outputDirectory
  | element
  | component
  | text
deriving DecidableEq

/-- An option that takes none. -/
inductive Flag where
  | strict
  | verbose
deriving DecidableEq

/-- What is asked for. -/
inductive Request where
  /-- A run of the compiler, talkative or not. -/
  | compile (options : Options) (verbose : Bool)
  /-- How the command is used. -/
  | help
  /-- Which version of it this is. -/
  | version
  /-- Nothing that makes sense. -/
  | invalid
deriving DecidableEq

/-- What the name of an option means. -/
inductive Meaning where
  | setting (setting : Setting)
  | flag (flag : Flag)
  | information (request : Request)

/-- The meaning of an option's long name. -/
def ofName? (name : String) : Option Meaning :=
  if name = "config" then some (.setting .settings)
  else if name = "out-dir" then some (.setting .outputDirectory)
  else if name = "element" then some (.setting .element)
  else if name = "component" then some (.setting .component)
  else if name = "text" then some (.setting .text)
  else if name = "strict" then some (.flag .strict)
  else if name = "verbose" then some (.flag .verbose)
  else if name = "help" then some (.information .help)
  else if name = "version" then some (.information .version)
  else none

/-- The meaning of an option's letter. -/
def ofLetter? (letter : Char) : Option Meaning :=
  if letter = 'c' then some (.setting .settings)
  else if letter = 'o' then some (.setting .outputDirectory)
  else if letter = 'v' then some (.flag .verbose)
  else if letter = 'h' then some (.information .help)
  else if letter = 'V' then some (.information .version)
  else none

/-! ## What was given so far -/

/-- The arguments read so far. -/
structure Given where
  /-- The paths, latest first. -/
  paths : List String
  /-- The values of options. -/
  values : List (Setting × String)
  /-- The flags. -/
  flags : List Flag

namespace Given

/-- Nothing. -/
def nothing : Given := ⟨[], [], []⟩

/-- Adds a path, which is not empty. -/
def addPath? (given : Given) (path : String) : Option Given :=
  if path.isEmpty then none else some { given with paths := path :: given.paths }

/-- Adds the value of an option, which is given once.  A path is not empty; a
function's name may be. -/
def addValue? (given : Given) (setting : Setting) (value : String) : Option Given :=
  let isPath := setting = .settings ∨ setting = .outputDirectory
  if (given.values.lookup setting).isSome ∨ (isPath ∧ value.isEmpty) then none
  else some { given with values := (setting, value) :: given.values }

/-- Adds a flag, which is given once. -/
def addFlag? (given : Given) (flag : Flag) : Option Given :=
  if given.flags.contains flag then none else some { given with flags := flag :: given.flags }

/-- The run asked for; there must be a path. -/
def request (given : Given) : Request :=
  if given.paths.isEmpty then .invalid
  else
    .compile
      { paths := given.paths.reverse
        settings := (given.values.lookup .settings).getD Compile.settingsFile
        outputDirectory := given.values.lookup .outputDirectory
        element := given.values.lookup .element
        component := given.values.lookup .component
        text := given.values.lookup .text
        strict := given.flags.contains .strict }
      (given.flags.contains .verbose)

end Given

/-! ## Reading -/

/-- What one argument comes to. -/
inductive Step where
  /-- The next argument can be read. -/
  | next (given : Given)
  /-- The next argument is the value of an option. -/
  | awaits (given : Given) (setting : Setting)
  /-- The reading ends. -/
  | stop (request : Request)

/-- Goes on with what was given, or stops if it makes no sense. -/
def Step.ofGiven? : Option Given → Step
  | some given => .next given
  | none => .stop .invalid

/-- Reads an option by its name, with the value after an equals sign, if any. -/
def readName (given : Given) (name : String) (value : Option String) : Step :=
  match ofName? name, value with
  | some (.setting setting), some value => .ofGiven? (given.addValue? setting value)
  | some (.setting setting), none => .awaits given setting
  | some (.flag flag), none => .ofGiven? (given.addFlag? flag)
  | some (.information request), none => .stop request
  | _, _ => .stop .invalid

/-- Reads options by their letters; what follows the letter of an option that
takes a value is the value, with or without an equals sign. -/
def readLetters (given : Given) : List Char → Step
  | [] => .next given
  | letter :: rest =>
    match ofLetter? letter with
    | some (.setting setting) =>
      match rest with
      | [] => .awaits given setting
      | '=' :: value => .ofGiven? (given.addValue? setting (String.ofList value))
      | value => .ofGiven? (given.addValue? setting (String.ofList value))
    | some (.flag flag) =>
      match given.addFlag? flag with
      | some given => readLetters given rest
      | none => .stop .invalid
    | some (.information request) => .stop request
    | none => .stop .invalid

/-- Whether an argument is an option: it starts with a dash, and is more than
one. -/
def isOption (argument : String) : Bool :=
  match argument.toList with
  | '-' :: _ :: _ => true
  | _ => false

/-- Reads one argument. -/
def readOne (given : Given) (argument : String) : Step :=
  match argument.toList with
  | '-' :: '-' :: name =>
    match name.dropWhile (· != '=') with
    | _ :: value =>
      readName given (String.ofList (name.takeWhile (· != '='))) (some (String.ofList value))
    | [] => readName given (String.ofList name) none
  | '-' :: letter :: letters => readLetters given (letter :: letters)
  | _ => .ofGiven? (given.addPath? argument)

/-- Reads arguments that are all paths. -/
def readPaths (given : Given) (paths : List String) : Request :=
  match paths.foldlM Given.addPath? given with
  | some given => given.request
  | none => .invalid

/-- Reads arguments. -/
def readFrom (given : Given) : List String → Request
  | [] => given.request
  | argument :: rest =>
    if argument = "--" then readPaths given rest
    else
      match readOne given argument with
      | .next given => readFrom given rest
      | .stop request => request
      | .awaits given setting =>
        match rest with
        | [] => .invalid
        | value :: rest =>
          if isOption value then .invalid
          else
            match given.addValue? setting value with
            | some given => readFrom given rest
            | none => .invalid

/-- What the arguments of the command ask for. -/
def read (arguments : List String) : Request := readFrom .nothing arguments

end InlineMarkup.CommandLine
