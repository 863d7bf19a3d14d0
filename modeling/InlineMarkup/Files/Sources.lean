import InlineMarkup.Failure
import InlineMarkup.Files.Disk
import InlineMarkup.Files.Path

/-!
# InlineMarkup.Files.Sources

Which files are compiled, and what their outputs are called.
-/

namespace InlineMarkup

/-- A file to compile. -/
structure Source where
  /-- The path to it. -/
  path : String
  /-- The path to it from the path it was found under. -/
  relative : String
deriving DecidableEq, Inhabited

namespace Source

/-- The extension of the files that are looked for in directories. -/
def extension : String := "jsx"

/-- Whether names lead to a file that is looked for. -/
def wanted (names : List String) : Bool :=
  names.getLast? >>= Path.extension? |>.any (· == extension)

/-- Whether names come first: names are compared one by one, by their
characters. -/
def namesLe : List String → List String → Bool
  | [], _ => true
  | _ :: _, [] => false
  | a :: as, b :: bs => if a = b then namesLe as bs else a < b

/-- The source that names lead to from a directory. -/
def ofNames (directory : String) (names : List String) : Source :=
  let relative := "/".intercalate names
  ⟨Path.join directory relative, relative⟩

section

variable {m : Type → Type} [Monad m] (disk : Disk m)

/-- The sources that a path stands for: a file stands for itself, a directory
for the files below it that have the right extension, in order. -/
def expand (path : String) : m (Except Failure (List Source)) := do
  match ← disk.kind? path with
  | some .file => return .ok [⟨path, (Path.fileName? path).getD path⟩]
  | some .directory =>
    let found := (← disk.files path).filter wanted
    return .ok ((found.mergeSort namesLe).map (ofNames path))
  | none => return .error (.notFound path)

/-- The sources that paths stand for, up to the first that leads nowhere. -/
def collect : List String → m (Except Failure (List Source))
  | [] => return .ok []
  | path :: rest => do
    match ← expand disk path with
    | .error failure => return .error failure
    | .ok sources =>
      match ← collect rest with
      | .error failure => return .error failure
      | .ok others => return .ok (sources ++ others)

end

/-- Where the output of a source goes: next to it, or to the same place below
an output directory.  `none` if the extension holds a slash. -/
def output? (source : Source) (directory : Option String) (extension : String) : Option String :=
  let base :=
    match directory with
    | some directory => Path.join directory source.relative
    | none => source.path
  Path.withExtension? base extension

end Source

end InlineMarkup
