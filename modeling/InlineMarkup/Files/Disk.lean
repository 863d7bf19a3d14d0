/-!
# InlineMarkup.Files.Disk

What the compiler asks of a file system.  The compiler is written against this
interface, so that it runs on a real disk and on a tree in memory alike.
-/

namespace InlineMarkup

/-- What a path leads to. -/
inductive FileKind where
  | file
  | directory
deriving DecidableEq, Inhabited

/-- The operations of a file system.  None of them fails in the monad: where
something cannot be done, the answer says so. -/
structure Disk (m : Type → Type) where
  /-- What a path leads to, if to anything. -/
  kind? : String → m (Option FileKind)
  /-- The text of a file; `none` if it cannot be read or is not text. -/
  read? : String → m (Option String)
  /-- The files below a directory, each by the names that lead to it. -/
  files : String → m (List (List String))
  /-- Makes a directory and those it is in, as far as they are missing, and
  says whether it is there now. -/
  makeDirectories : String → m Bool
  /-- Writes a file, and says whether that was possible. -/
  write : String → String → m Bool

end InlineMarkup
