import InlineMarkup.Config
import InlineMarkup.Markup.Node
import InlineMarkup.Name
import InlineMarkup.Text.Quoted
import InlineMarkup.Text.Trim

/-!
# InlineMarkup.Render

Code written for markup.  A tag becomes a call of the configured function with
the tag's name, its attributes as an object, and its children:

```
h('ul', {class: 'menu'},
	h('li', null, 'one'),
	h('li', null, 'two')
)
```

A single short child stays on the line of its parent; otherwise every child
has a line of its own.  What is written for each part passes through `Hooks`,
which may change it or take note of it; every nested part goes through the
hooks again.
-/

namespace InlineMarkup

/-- What a user may do with each part of the code written.  A hook is given
the depth of the part, which is the number of tags around it, the part of the
tree that is written, and the action that writes it as usual. -/
structure Hooks (m : Type → Type) where
  /-- Any node, except for a text among the children of a tag. -/
  node : Nat → Node → m String → m String
  /-- The call for a tag. -/
  tag : Nat → Tag → m String → m String
  /-- A segment of a text. -/
  text : Segment → m String → m String
  /-- The attributes of a tag. -/
  props : Nat → Attributes → m String → m String
  /-- The children of a tag. -/
  children : Nat → List Node → m String → m String
  /-- Code that holds markup. -/
  embedded : Nat → Embedded → m String → m String

namespace Hooks

/-- Leaves everything as usual. -/
def none {m : Type → Type} : Hooks m where
  node _ _ usual := usual
  tag _ _ usual := usual
  text _ usual := usual
  props _ _ usual := usual
  children _ _ usual := usual
  embedded _ _ usual := usual

end Hooks

namespace Render

/-- The longest literal text, in characters, that stays on the line of its
parent. -/
def inlineLimit : Nat := 60

/-- Whether a segment, as the only child, stays on the line of its parent. -/
def segmentFits : Segment → Bool
  | .literal text => text.length ≤ inlineLimit && !text.toList.contains '\n'
  | .expression _ => true

/-- Whether a node, as the only child, stays on the line of its parent. -/
def nodeFits : Node → Bool
  | .tag _ _ _ children _ => children.isEmpty
  | .text _ => true
  | .embedded _ _ => true

/-- The indentation at a depth: one `indent` for each level.  An empty one is
not repeated, so that no depth is too large for it. -/
def indentation (config : Config) (depth : Nat) : String :=
  if config.indent = "" then "" else String.join (List.replicate depth config.indent)

/-- The indentation is `indent` repeated, also where it is empty. -/
theorem indentation_eq_join (config : Config) (depth : Nat) :
    indentation config depth = String.join (List.replicate depth config.indent) := by
  unfold indentation
  split
  next h =>
    rw [h]
    induction depth with
    | zero => rfl
    | succ depth ih => rw [List.replicate_succ, String.join_cons, ← ih]; rfl
  next => rfl

/-- A segment: a literal as a string, code as itself, either in the function
for texts. -/
def segment (config : Config) (part : Segment) : String :=
  let inner :=
    match part with
    | .literal text => Text.quote text
    | .expression code => code
  match config.textFactory? with
  | some factory => s!"{factory}({inner})"
  | none => inner

/-- The key of an attribute: bare if it is an identifier, else quoted. -/
def key (name : String) : String := if Name.isIdentifier name then name else Text.quote name

/-- The function called for a kind of tag. -/
def factory (config : Config) : TagKind → String
  | .element => config.element
  | .component => config.component

/-- The name of a tag as an argument: the name of an element is a string, that
of a component is code. -/
def tagName : TagKind → String → String
  | .element, name => Text.quote name
  | .component, name => name

/-- The attributes as an object, from the entries written. -/
def object (entries : List String) : String :=
  if entries.isEmpty then "null" else "\x7b" ++ ", ".intercalate entries ++ "\x7d"

/-- The arguments for children, from what was written for each and whether it
fits on the line of the parent. -/
def arguments (config : Config) (depth : Nat) : List (String × Bool) → String
  | [] => ""
  | [(item, true)] => ", " ++ item
  | items =>
    let pad := indentation config (depth + 1)
    ",\n" ++ ",\n".intercalate (items.map fun item => pad ++ item.1) ++ "\n"
      ++ indentation config depth

section

variable {m : Type → Type} [Monad m] (hooks : Hooks m) (config : Config)

/-- A segment, through the hooks. -/
def hookedSegment (part : Segment) : m String := hooks.text part (pure (segment config part))

mutual

/-- A node at a depth. -/
def node (depth : Nat) : Node → m String
  | .tag kind name attributes kids selfClosing =>
    hooks.node depth (.tag kind name attributes kids selfClosing) do
      hooks.tag depth ⟨kind, name, attributes, kids, selfClosing⟩ do
        let props ← hooks.props depth attributes (object <$> entries depth attributes)
        let arguments ← hooks.children depth kids (arguments config depth <$> items depth kids)
        return s!"{factory config kind}({tagName kind name}, {props}{arguments})"
  | .text segments =>
    hooks.node depth (.text segments) do
      return ", ".intercalate (← segments.mapM (hookedSegment hooks config))
  | .embedded source parts =>
    hooks.node depth (.embedded source parts) do
      hooks.embedded depth ⟨source, parts⟩ (String.join <$> pieces depth parts)

/-- The entries of the object for attributes. -/
def entries (depth : Nat) : List (String × AttrValue) → m (List String)
  | [] => pure []
  | (name, given) :: rest => do
    let written ← value depth name given
    return (key name ++ ": " ++ written) :: (← entries depth rest)

/-- The value of an attribute called `name`. -/
def value (depth : Nat) (name : String) : AttrValue → m String
  | .string text => pure (Text.quote text)
  | .flag => pure (if Name.isBooleanAttribute name then "true" else "'true'")
  | .expression code => pure (String.ofList (Text.trim code.toList))
  | .nested source parts =>
    hooks.embedded (depth + 1) ⟨source, parts⟩ (String.join <$> pieces (depth + 1) parts)

/-- The children of a tag at `depth`: each with whether it fits on the line of
its parent.  The segments of a text count one by one. -/
def items (depth : Nat) : List Node → m (List (String × Bool))
  | [] => pure []
  | .text segments :: rest => do
    let written ← segments.mapM fun part => do
      return (← hookedSegment hooks config part, segmentFits part)
    return written ++ (← items depth rest)
  | child :: rest => do
    let written ← node (depth + 1) child
    return (written, nodeFits child) :: (← items depth rest)

/-- The pieces of code that holds markup: code as it is, markup at `depth`. -/
def pieces (depth : Nat) : List Piece → m (List String)
  | [] => pure []
  | .code text :: rest => return text :: (← pieces depth rest)
  | .markup root :: rest => return (← node depth root) :: (← pieces depth rest)

end

/-- The attributes of a tag. -/
def props (depth : Nat) (attributes : Attributes) : m String :=
  hooks.props depth attributes (object <$> entries hooks config depth attributes)

/-- The children of a tag. -/
def children (depth : Nat) (kids : List Node) : m String :=
  hooks.children depth kids (arguments config depth <$> items hooks config depth kids)

end

end Render

/-- The code written for a node, as usual. -/
def Node.render (config : Config) (node : Node) : String :=
  Id.run (Render.node Hooks.none config 0 node)

end InlineMarkup
