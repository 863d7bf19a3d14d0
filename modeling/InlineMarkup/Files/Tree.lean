import InlineMarkup.Files.Disk
import InlineMarkup.Files.Path

/-!
# InlineMarkup.Files.Tree

A file system in memory: one tree of directories and files, without links, in
which a directory is the working directory.  What stands where is told by the
names that lead there from the root, so all paths to a file lead to the same
location, be they relative or absolute, and also if they leave a directory by two
dots and enter it again.
-/

namespace InlineMarkup

/-- What a file holds. -/
inductive FileContent where
  /-- Text. -/
  | text (text : String)
  /-- Bytes that are not the UTF-8 form of any text. -/
  | binary (bytes : List UInt8)
deriving DecidableEq, Inhabited

/-- What stands at a location. -/
inductive Entry where
  | directory
  | file (content : FileContent)
deriving DecidableEq, Inhabited

/-- Where a file or directory stands: the names that lead there from the root. -/
abbrev Location := List String

/-- The location that one more component leads to, from a directory.  The root is
in itself. -/
def Location.follow (location : Location) : Path.Component → Location
  | .root => []
  | .here => location
  | .up => location.dropLast
  | .name name => location ++ [name]

/-- A file system. -/
structure Tree where
  /-- The working directory. -/
  working : Location
  /-- What stands where. -/
  entries : List (Location × Entry)
deriving DecidableEq, Inhabited

namespace Tree

/-- What stands at a location.  The working directory and the directories it is in
are always there. -/
def get? (tree : Tree) (location : Location) : Option Entry :=
  if location.isPrefixOf tree.working then some .directory else tree.entries.lookup location

/-- Puts something at a location, in place of what stands there. -/
def putAmong (location : Location) (entry : Entry) :
    List (Location × Entry) → List (Location × Entry)
  | [] => [(location, entry)]
  | (other, old) :: rest =>
    if other = location then (other, entry) :: rest
    else (other, old) :: putAmong location entry rest

/-- Puts something at a location. -/
def put (location : Location) (entry : Entry) (tree : Tree) : Tree :=
  { tree with entries := putAmong location entry tree.entries }

/-! ## From paths to locations -/

/-- The location that components lead to.  What they lead through must be
directories; what they lead to need not exist. -/
def walk? (tree : Tree) (location : Location) : List Path.Component → Option Location
  | [] => some location
  | component :: rest =>
    if tree.get? location = some .directory then walk? tree (location.follow component) rest
    else none

/-- Whether a path can be used at all: no path holds a null character, or is of
4096 bytes or more. -/
def usable (path : String) : Bool := !path.toList.contains '\x00' && path.utf8ByteSize < 4096

/-- Whether a name is short enough to be given to a file. -/
def nameFits (name : String) : Bool := name.utf8ByteSize ≤ 255

/-- Whether a file or directory can be made at a location, as far as its name
goes. -/
def admits (location : Location) : Bool := location.getLast?.all nameFits

/-- What a path leads to. -/
def find? (tree : Tree) (path : String) : Option (Location × Entry) :=
  if path.isEmpty ∨ !usable path then none
  else do
    let location ← walk? tree tree.working (Path.components path)
    let entry ← tree.get? location
    if Path.namesDirectory path ∧ entry ≠ .directory then none else some (location, entry)

/-! ## The operations -/

/-- What a path leads to. -/
def kind? (tree : Tree) (path : String) : Option FileKind :=
  (tree.find? path).map fun (_, entry) =>
    match entry with
    | .directory => .directory
    | .file _ => .file

/-- The text of a file. -/
def read? (tree : Tree) (path : String) : Option String :=
  match tree.find? path with
  | some (_, .file (.text text)) => some text
  | _ => none

/-- The names that lead from one location to another below it. -/
def below? : Location → Location → Option (List String)
  | [], names => some names
  | name :: base, other :: names => if name = other then below? base names else none
  | _ :: _, [] => none

/-- The files below a directory. -/
def files (tree : Tree) (path : String) : List (List String) :=
  match tree.find? path with
  | some (base, .directory) =>
    tree.entries.filterMap fun (location, entry) =>
      match entry with
      | .file _ => below? base location
      | .directory => none
  | _ => []

/-- Makes the directories on the way that components lead, from a directory,
as far as they are missing; the tree so far, and whether the way is free. -/
def makeWay (tree : Tree) (location : Location) : List Path.Component → Bool × Tree
  | [] => (true, tree)
  | component :: rest =>
    let next := location.follow component
    match tree.get? next with
    | some .directory => makeWay tree next rest
    | some (.file _) => (false, tree)
    | none =>
      if admits next then makeWay (put next .directory tree) next rest else (false, tree)

/-- Makes a directory and those it is in. -/
def makeDirectories (tree : Tree) (path : String) : Bool × Tree :=
  if usable path then makeWay tree tree.working (Path.components path) else (false, tree)

/-- Writes a file, in a directory that exists. -/
def write (tree : Tree) (path text : String) : Bool × Tree :=
  if usable path ∧ !Path.namesDirectory path ∧ (Path.fileName? path).isSome then
    match walk? tree tree.working (Path.components path) with
    | none => (false, tree)
    | some location =>
      if tree.get? location = some .directory ∨ !admits location then (false, tree)
      else (true, put location (.file (.text text)) tree)
  else (false, tree)

/-- The file system that a tree is. -/
def disk : Disk (StateM Tree) where
  kind? path := do return (← get).kind? path
  read? path := do return (← get).read? path
  files path := do return (← get).files path
  makeDirectories path := modifyGet fun tree => tree.makeDirectories path
  write path text := modifyGet fun tree => tree.write path text

/-! ## Making and listing a tree -/

/-- Adds a file, or without content a directory, and the directories it is in. -/
def add (tree : Tree) (path : String) (content : Option FileContent) : Tree :=
  let way := Path.components path
  match content with
  | none => (tree.makeWay tree.working way).2
  | some content =>
    put (way.foldl Location.follow tree.working) (.file content)
      (tree.makeWay tree.working way.dropLast).2

/-- What stands below the working directory, by the names that lead to it. -/
def listing (tree : Tree) : List (List String × Entry) :=
  tree.entries.filterMap fun (location, entry) =>
    (below? tree.working location).map fun names => (names, entry)

end Tree

end InlineMarkup
