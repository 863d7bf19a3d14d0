import InlineMarkup.Render

/-!
# InlineMarkup.Render.Limits

How deep code can be written.  A caller may ask for code at any depth, but
depths are counted in 64 bits, and no indentation is longer than half of what
64 bits count, in bytes.  What would go beyond is not written at all:
`node?`, `props?` and `children?` decide that before they write anything.

Only depths that are used count: an empty tag does not go deeper, and a child
on the line of its parent is not indented.
-/

namespace InlineMarkup.Render

namespace Limits

/-- The greatest depth. -/
def deepest : Nat := 0xffffffffffffffff

/-- The length of the longest indentation, in bytes. -/
def longest : Nat := 0x7fffffffffffffff

/-- Whether the level below a depth can be reached. -/
def admitsBelow (depth : Nat) : Bool := depth < deepest

/-- Whether a line can be indented at a depth. -/
def admitsIndentation (config : Config) (depth : Nat) : Bool :=
  config.indent.utf8ByteSize * depth ≤ longest

/-- For each argument that children give, whether it fits on the line of the
parent. -/
def fitting (kids : List Node) : List Bool :=
  kids.flatMap fun
    | .text segments => segments.map segmentFits
    | child => [nodeFits child]

/-- Whether children stand on lines of their own. -/
def inBlock (kids : List Node) : Bool :=
  match fitting kids with
  | [] | [true] => false
  | _ => true

/-- Whether children can be laid out: a block is indented one level below its
parent. -/
def admitsLayout (config : Config) (depth : Nat) (kids : List Node) : Bool :=
  !inBlock kids || (admitsBelow depth && admitsIndentation config (depth + 1))

mutual

/-- Whether a node can be written at a depth. -/
def admitsNode (config : Config) (depth : Nat) : Node → Bool
  | .tag _ _ attributes kids _ =>
    admitsEntries config depth attributes && admitsItems config depth kids
      && admitsLayout config depth kids
  | .text _ => true
  | .embedded _ parts => admitsPieces config depth parts

/-- Whether attributes can be written. -/
def admitsEntries (config : Config) (depth : Nat) : List (String × AttrValue) → Bool
  | [] => true
  | (_, given) :: rest => admitsValue config depth given && admitsEntries config depth rest

/-- Whether the value of an attribute can be written. -/
def admitsValue (config : Config) (depth : Nat) : AttrValue → Bool
  | .nested _ parts => admitsBelow depth && admitsPieces config (depth + 1) parts
  | _ => true

/-- Whether each child of a tag at `depth` can be written. -/
def admitsItems (config : Config) (depth : Nat) : List Node → Bool
  | [] => true
  | .text _ :: rest => admitsItems config depth rest
  | child :: rest =>
    admitsBelow depth && admitsNode config (depth + 1) child && admitsItems config depth rest

/-- Whether the pieces of code that holds markup can be written. -/
def admitsPieces (config : Config) (depth : Nat) : List Piece → Bool
  | [] => true
  | .code _ :: rest => admitsPieces config depth rest
  | .markup root :: rest => admitsNode config depth root && admitsPieces config depth rest

end

end Limits

section

variable {m : Type → Type} [Monad m] (hooks : Hooks m) (config : Config)

/-- A node at a depth, if it can be written there. -/
def node? (depth : Nat) (given : Node) : Option (m String) :=
  if Limits.admitsNode config depth given then some (node hooks config depth given) else none

/-- The attributes of a tag at a depth, if they can be written there. -/
def props? (depth : Nat) (attributes : Attributes) : Option (m String) :=
  if Limits.admitsEntries config depth attributes then
    some (props hooks config depth attributes)
  else none

/-- The children of a tag at a depth, if they can be written there. -/
def children? (depth : Nat) (kids : List Node) : Option (m String) :=
  if Limits.admitsItems config depth kids && Limits.admitsLayout config depth kids then
    some (children hooks config depth kids)
  else none

end

end InlineMarkup.Render
