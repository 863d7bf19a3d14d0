import InlineMarkup.Text.Split

/-!
# InlineMarkup.Files.Path

Paths, as text.  Two paths are the same if they have the same components, and
that is a matter of spelling: `./a` and `a` differ, `a//b/` and `a/b` do not.
-/

namespace InlineMarkup.Path

/-- A component of a path. -/
inductive Component where
  /-- The root that an absolute path starts from. -/
  | root
  /-- A dot at the start of a path. -/
  | here
  /-- Two dots. -/
  | up
  /-- The name of a file or directory. -/
  | name (text : String)
deriving DecidableEq, Inhabited

/-- The component written between two slashes, if that is one. -/
def component? (part : List Char) : Option Component :=
  if part = [] ∨ part = ['.'] then none
  else if part = ['.', '.'] then some .up
  else some (.name (String.ofList part))

/-- The components of a path.  Slashes may be repeated, and a dot counts at the
start only. -/
def components (path : String) : List Component :=
  match Text.splitAt '/' path.toList with
  | [] :: second :: rest => .root :: (second :: rest).filterMap component?
  | ['.'] :: rest => .here :: rest.filterMap component?
  | parts => parts.filterMap component?

/-- Whether two paths have the same components. -/
def same (first second : String) : Bool := components first == components second

/-- A path below another one; an absolute path stays itself. -/
def join (base path : String) : String :=
  if path.toList.head? = some '/' ∨ base.isEmpty then path
  else if base.toList.getLast? = some '/' then base ++ path
  else base ++ "/" ++ path

/-! ## The last component -/

/-- A path, last character first, without the slashes and dots after its last
component. -/
def dropTail : List Char → List Char
  | ['/'] => ['/']
  | '/' :: rest => dropTail rest
  | '.' :: '/' :: rest => dropTail ('/' :: rest)
  | path => path

/-- A path without the slashes and dots after its last component. -/
def trimTail (path : List Char) : List Char := (dropTail path.reverse).reverse

/-- Whether a path can only mean a directory, because a slash or a dot follows
its last component. -/
def namesDirectory (path : String) : Bool := trimTail path.toList != path.toList

/-- A path cut before its last name: what comes before, up to the slash, and
the name.  `none` if the path does not end in a name. -/
def cutName? (path : String) : Option (List Char × List Char) :=
  let backwards := (trimTail path.toList).reverse
  let name := (backwards.takeWhile (· != '/')).reverse
  if name = [] ∨ name = ['.'] ∨ name = ['.', '.'] then none
  else some ((backwards.dropWhile (· != '/')).reverse, name)

/-- The name that a path ends in. -/
def fileName? (path : String) : Option String :=
  (cutName? path).map fun (_, name) => String.ofList name

/-- A path without its last component; the root and the empty path have none. -/
def parent? (path : String) : Option String :=
  let backwards := (trimTail path.toList).reverse
  if backwards = [] ∨ backwards = ['/'] then none
  else some (String.ofList (trimTail (backwards.dropWhile (· != '/')).reverse))

/-- A name without its extension, and the extension: what follows the last dot,
unless nothing comes before that dot. -/
def splitExtension (name : List Char) : List Char × Option (List Char) :=
  let backwards := name.reverse
  let extension := (backwards.takeWhile (· != '.')).reverse
  match backwards.dropWhile (· != '.') with
  | _ :: c :: stem => ((c :: stem).reverse, some extension)
  | _ => (name, none)

/-- The extension of the name that a path ends in. -/
def extension? (path : String) : Option String := do
  let (_, name) ← cutName? path
  (splitExtension name).2.map String.ofList

/-- A path with the extension of its name replaced; an empty extension is
taken away.  The old extension leaves its dot for the new one; two dots left
alone in that way lead to the directory above, and a path that ends so has no
extension to replace.  `none` if the extension holds a slash. -/
def withExtension? (path extension : String) : Option String :=
  if extension.toList.contains '/' then none
  else
    match cutName? path with
    | none => some path
    | some (before, name) =>
      let stem := (splitExtension name).1
      if stem = ['.'] ∧ !namesDirectory path then some (String.ofList (before ++ ['.', '.']))
      else if extension.isEmpty then some (String.ofList (before ++ stem))
      else some (String.ofList (before ++ stem) ++ "." ++ extension)

end InlineMarkup.Path
