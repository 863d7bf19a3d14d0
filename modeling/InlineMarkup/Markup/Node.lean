/-!
# InlineMarkup.Markup.Node

The tree that stands for a piece of markup.  A tag has attributes and
children; between tags stand runs of text, and code that itself holds markup.
Code that holds markup is kept both as written and cut into pieces.
-/

namespace InlineMarkup

/-- The two kinds of tag: an element such as `div`, whose name is a word of
the document, and a component such as `Button`, whose name refers to code. -/
inductive TagKind where
  | element
  | component
deriving DecidableEq, Inhabited

/-- A part of a run of text. -/
inductive Segment where
  /-- Text as it is shown. -/
  | literal (text : String)
  /-- Code whose value is shown. -/
  | expression (code : String)
deriving DecidableEq, Inhabited

mutual

/-- A node of a markup tree. -/
inductive Node where
  /-- A tag with its content. -/
  | tag (kind : TagKind) (name : String) (attributes : List (String × AttrValue))
      (children : List Node) (selfClosing : Bool)
  /-- A run of text. -/
  | text (segments : List Segment)
  /-- Code that holds markup: as written, and cut into pieces. -/
  | embedded (source : String) (pieces : List Piece)

/-- The value of an attribute. -/
inductive AttrValue where
  /-- A string. -/
  | string (value : String)
  /-- The attribute has no value; its presence is what counts. -/
  | flag
  /-- Code without markup. -/
  | expression (code : String)
  /-- Code that holds markup: as written, and cut into pieces. -/
  | nested (source : String) (pieces : List Piece)

/-- A part of code that may hold markup. -/
inductive Piece where
  /-- Code without markup. -/
  | code (text : String)
  /-- A markup fragment. -/
  | markup (node : Node)

end

instance : Inhabited Node := ⟨.text []⟩
instance : Inhabited AttrValue := ⟨.flag⟩
instance : Inhabited Piece := ⟨.code ""⟩

/-! ## Attributes -/

/-- The attributes of a tag, in order, with distinct names. -/
abbrev Attributes := List (String × AttrValue)

namespace Attributes

/-- Sets an attribute.  A name already present keeps its place and takes the
new value; a new name goes to the end. -/
def insert (name : String) (value : AttrValue) : Attributes → Attributes
  | [] => [(name, value)]
  | (other, old) :: rest =>
    if other = name then (other, value) :: rest else (other, old) :: insert name value rest

/-- The value of the attribute called `name`. -/
def get? (attributes : Attributes) (name : String) : Option AttrValue := attributes.lookup name

/-- The attributes set by a list of assignments, made in turn. -/
def ofList (assignments : List (String × AttrValue)) : Attributes :=
  assignments.foldl (fun attributes a => insert a.1 a.2 attributes) []

/-- The names, in order. -/
def names (attributes : Attributes) : List String := attributes.map Prod.fst

/-- Setting an attribute adds its name at the end, unless it is there. -/
theorem names_insert (name : String) (value : AttrValue) (attributes : Attributes) :
    (insert name value attributes).names =
      if name ∈ attributes.names then attributes.names else attributes.names ++ [name] := by
  induction attributes with
  | nil => rfl
  | cons entry rest ih =>
    obtain ⟨other, old⟩ := entry
    by_cases h : other = name
    · simp [insert, names, h]
    · have h' : ¬ name = other := fun e => h e.symm
      simp only [names] at ih
      simp only [insert, names, h, h', if_false, List.map_cons, ih, List.mem_cons, false_or]
      split <;> simp_all

end Attributes

/-! ## Nodes -/

/-- A tag with its content. -/
structure Tag where
  kind : TagKind
  name : String
  attributes : Attributes
  children : List Node
  selfClosing : Bool

/-- The node that a tag is. -/
def Tag.node (tag : Tag) : Node :=
  .tag tag.kind tag.name tag.attributes tag.children tag.selfClosing

/-- Code that holds markup: as written, and cut into pieces. -/
structure Embedded where
  source : String
  pieces : List Piece

namespace Node

/-- The name of a tag. -/
def name? : Node → Option String
  | tag _ name _ _ _ => some name
  | text _ => none
  | embedded _ _ => none

/-- The attributes of a tag. -/
def attributes? : Node → Option Attributes
  | tag _ _ attributes _ _ => some attributes
  | text _ => none
  | embedded _ _ => none

/-- The children of a tag; no other node has any. -/
def children : Node → List Node
  | tag _ _ _ children _ => children
  | text _ => []
  | embedded _ _ => []

/-- Whether the node is a tag that closes itself. -/
def isSelfClosing : Node → Bool
  | tag _ _ _ _ selfClosing => selfClosing
  | text _ => false
  | embedded _ _ => false

/-- Whether the node is a tag that can take children. -/
def acceptsChildren : Node → Bool
  | tag _ _ _ _ selfClosing => !selfClosing
  | text _ => false
  | embedded _ _ => false

/-- Adds a last child, if the node can take one. -/
def pushChild (parent child : Node) : Node :=
  match parent with
  | tag kind name attributes children false => tag kind name attributes (children ++ [child]) false
  | _ => parent

end Node

end InlineMarkup
