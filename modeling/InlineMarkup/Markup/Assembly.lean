import InlineMarkup.Markup.Header

/-!
# InlineMarkup.Markup.Assembly

Trees put together from the tags and texts of a fragment as they are read.
The open nodes form a stack; a node that is finished becomes a child of the
innermost open one, or the root if none is open.  There is one root: what
would be a second is dropped, as is a child of a node that takes none.

How nodes are made is left to a `NodeMaker`, so that a user can decorate or
replace them; the stack works for any maker.
-/

namespace InlineMarkup

/-- How nodes are made from what was read. -/
structure NodeMaker where
  /-- The node of an element: its name, its attributes, and whether it closes
  itself. -/
  element : String → Attributes → Bool → Node
  /-- The node of a component, likewise. -/
  component : String → Attributes → Bool → Node
  /-- The node of a run of text. -/
  text : List Segment → Node
  /-- The node of code that holds markup: as written, and cut into pieces. -/
  embedded : String → List Piece → Node

namespace NodeMaker

/-- Makes every node just as it was read. -/
def plain : NodeMaker where
  element name attributes selfClosing := .tag .element name attributes [] selfClosing
  component name attributes selfClosing := .tag .component name attributes [] selfClosing
  text := .text
  embedded := .embedded

/-- The node of a header. -/
def ofHeader (maker : NodeMaker) (header : Header) : Node :=
  if header.isComponent then maker.component header.name header.attributes header.selfClosing
  else maker.element header.name header.attributes header.selfClosing

end NodeMaker

/-- A tree half put together. -/
structure Assembly where
  /-- The open nodes, innermost first. -/
  stack : List Node
  /-- The root, once it is finished. -/
  root : Option Node

namespace Assembly

/-- Nothing yet. -/
def empty : Assembly := ⟨[], none⟩

/-- What came of opening a tag. -/
inductive Opened where
  /-- It is open. -/
  | opened
  /-- It closes itself inside another one. -/
  | leaf
  /-- It closes itself and is the root. -/
  | root
deriving DecidableEq

/-- What came of closing a tag. -/
inductive Closed where
  /-- The innermost node is closed and another one is open. -/
  | inner
  /-- The last open node is closed. -/
  | root
  /-- The closing tag of a void element, with nothing to close. -/
  | ignoredVoid
  /-- Nothing is open. -/
  | unmatched
deriving DecidableEq

/-- The number of open nodes. -/
def depth (assembly : Assembly) : Nat := assembly.stack.length

/-- The name of the innermost open node. -/
def currentName? (assembly : Assembly) : Option String := assembly.stack.head? >>= Node.name?

/-- Puts a finished node where it belongs. -/
def attach (node : Node) (assembly : Assembly) : Assembly :=
  match assembly.stack with
  | parent :: outer => { assembly with stack := parent.pushChild node :: outer }
  | [] => { assembly with root := assembly.root <|> some node }

/-- Opens the tag of a header. -/
def openTag (maker : NodeMaker) (header : Header) (assembly : Assembly) : Opened × Assembly :=
  let node := maker.ofHeader header
  if header.selfClosing then
    (if assembly.stack.isEmpty then .root else .leaf, assembly.attach node)
  else (.opened, { assembly with stack := node :: assembly.stack })

/-- Closes the innermost open node, whatever its name.  The closing tag of a
void element closes nothing but that element. -/
def closeTag (name : String) (assembly : Assembly) : Closed × Assembly :=
  if Name.isVoid name ∧ assembly.currentName? ≠ some name then (.ignoredVoid, assembly)
  else
    match assembly.stack with
    | [] => (.unmatched, assembly)
    | node :: outer =>
      (if outer.isEmpty then .root else .inner, { assembly with stack := outer }.attach node)

/-- Adds a run of text, unless it is empty. -/
def addText (maker : NodeMaker) (segments : List Segment) (assembly : Assembly) : Assembly :=
  if segments.isEmpty then assembly else assembly.attach (maker.text segments)

/-- Adds code that holds markup. -/
def addEmbedded (maker : NodeMaker) (source : String) (pieces : List Piece)
    (assembly : Assembly) : Assembly :=
  assembly.attach (maker.embedded source pieces)

/-- The root, once every open node is closed. -/
def finish (assembly : Assembly) : Option Node :=
  match assembly.stack with
  | [] => assembly.root
  | node :: outer =>
    assembly.root <|> some (outer.foldl (fun child parent => parent.pushChild child) node)

end Assembly

end InlineMarkup
