import InlineMarkup.CommandLine

/-!
# InlineMarkup.Main

The command, on a real disk.
-/

namespace InlineMarkup.Main

/-- The result of an action, if it does not fail. -/
def attempt? {α : Type} (action : IO α) : IO (Option α) := do
  try
    return some (← action)
  catch _ => return none

/-- The names that lead to the files below a directory, after `names`. -/
partial def filesBelow (directory : String) (names : List String) : IO (List (List String)) := do
  let entries := (← attempt? (System.mkFilePath [directory]).readDir).getD #[]
  let mut found := []
  for entry in entries.toList do
    let path := Path.join directory entry.fileName
    let below := names ++ [entry.fileName]
    if ← (System.mkFilePath [path]).isDir then found := found ++ (← filesBelow path below)
    else found := found ++ [below]
  return found

/-- The file system of the machine. -/
def disk : Disk IO where
  kind? path := do
    if ← (System.mkFilePath [path]).isDir then return some .directory
    else if ← (System.mkFilePath [path]).pathExists then return some .file
    else return none
  read? path := attempt? (IO.FS.readFile path)
  files path := filesBelow path []
  makeDirectories path := do return (← attempt? (IO.FS.createDirAll path)).isSome
  write path text := do return (← attempt? (IO.FS.writeFile path text)).isSome

/-- How the command is used. -/
def usage : String :=
  "Compile inline markup into factory calls\n\n" ++
  "Usage: jsxc [OPTIONS] <PATHS>...\n\n" ++
  "Options:\n" ++
  "  -c, --config <CONFIG>        Settings file [default: jsxc.toml]\n" ++
  "  -o, --out-dir <OUT_DIR>      Output directory\n" ++
  "      --element <ELEMENT>      Factory for elements\n" ++
  "      --component <COMPONENT>  Factory for components\n" ++
  "      --text <TEXT>            Wrapper for text children\n" ++
  "      --strict                 Fail on malformed markup\n" ++
  "  -v, --verbose                List the files written\n" ++
  "  -h, --help                   Print help\n" ++
  "  -V, --version                Print version"

/-- The causes of a failure below the failure itself, in words. -/
def causes : Failure → List String
  | .faultyMarkup _ fault => [fault.message]
  | _ => []

end InlineMarkup.Main

open InlineMarkup in
/-- Runs the command with its arguments: 0 if all went well, 1 if the run
failed, 2 if the arguments make no sense. -/
def main (arguments : List String) : IO UInt32 := do
  match CommandLine.read arguments with
  | .help => IO.println Main.usage; return 0
  | .version => IO.println "jsxc 0.1.0"; return 0
  | .invalid => IO.eprintln Main.usage; return 2
  | .compile options verbose =>
    match ← Compile.run Main.disk options with
    | .ok outputs =>
      if verbose then outputs.forM fun output => IO.println output
      return 0
    | .error failure =>
      IO.eprintln s!"Error: {failure.message}"
      (Main.causes failure).forM fun cause => IO.eprintln s!"\nCaused by:\n    {cause}"
      return 1
