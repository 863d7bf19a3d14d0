import InlineMarkup.Proofs.Descent

/-!
# InlineMarkup.Proofs.Listing

Trees put together by any operations, in any order.  The operations on an assembly are listed as
data (`Assembly.Operation`) and made one after the other (`Assembly.after`).  What each of them
says about the tree is an `Event`, and a tree has its events listed depth first (`Node.listing`).

One operation does one of four things (`Assembly.Effect`): nothing, or it opens a node, or it adds
one that is finished, or it closes the innermost one.  From this it follows that an assembly always
tells the events it was given, up to the one with which the root was finished (`Assembly.Tells`).
-/

namespace InlineMarkup

/-! ## Listings -/

/-- A step in the listing of a tree. -/
inductive Event where
  /-- A tag begins. -/
  | opening (kind : TagKind) (name : String) (attributes : Attributes)
  /-- The innermost tag ends. -/
  | closing
  /-- A tag that closes itself. -/
  | leaf (kind : TagKind) (name : String) (attributes : Attributes)
  /-- A run of text. -/
  | text (segments : List Segment)
  /-- Code that holds markup. -/
  | embedded (source : String) (pieces : List Piece)

namespace Node

mutual

/-- The events of a tree, depth first. -/
def listing : Node → List Event
  | .tag kind name attributes _ true => [.leaf kind name attributes]
  | .tag kind name attributes children false =>
    .opening kind name attributes :: (listings children ++ [.closing])
  | .text segments => [.text segments]
  | .embedded source pieces => [.embedded source pieces]

/-- The events of trees, one after the other. -/
def listings : List Node → List Event
  | [] => []
  | node :: rest => listing node ++ listings rest

end

theorem listings_concat (nodes : List Node) (last : Node) :
    listings (nodes ++ [last]) = listings nodes ++ listing last := by
  induction nodes with
  | nil => simp [listings]
  | cons node rest ih => simp [listings, ih]

/-- No tag that closes itself has children. -/
inductive Bare : Node → Prop
  | leaf (kind : TagKind) (name : String) (attributes : Attributes) :
    Bare (.tag kind name attributes [] true)
  | tag {kind : TagKind} {name : String} {attributes : Attributes} {children : List Node}
    (bare : ∀ child ∈ children, Bare child) : Bare (.tag kind name attributes children false)
  | text (segments : List Segment) : Bare (.text segments)
  | embedded (source : String) (pieces : List Piece) : Bare (.embedded source pieces)

/-- A listing has a first event, and that is no end of a tag. -/
theorem exists_listing_eq_cons (node : Node) :
    ∃ event rest, node.listing = event :: rest ∧ event ≠ .closing := by
  cases node with
  | tag kind name attributes children selfClosing =>
    cases selfClosing with
    | true => exact ⟨_, _, rfl, nofun⟩
    | false => exact ⟨_, _, rfl, nofun⟩
  | text segments => exact ⟨_, _, rfl, nofun⟩
  | embedded source pieces => exact ⟨_, _, rfl, nofun⟩

theorem listing_ne_nil (node : Node) : node.listing ≠ [] := by
  obtain ⟨event, rest, begins, -⟩ := node.exists_listing_eq_cons
  simp [begins]

/-- Listings of children are told apart if those of each child are. -/
theorem listings_append_closing_inj {nodes others : List Node} {rest after : List Event}
    (each : ∀ node ∈ nodes, ∀ {other rest after}, Bare other →
      node.listing ++ rest = other.listing ++ after → node = other ∧ rest = after)
    (bare : ∀ other ∈ others, Bare other)
    (same : listings nodes ++ .closing :: rest = listings others ++ .closing :: after) :
    nodes = others ∧ rest = after := by
  induction nodes generalizing others with
  | nil =>
    cases others with
    | nil => exact ⟨rfl, by simpa [listings] using same⟩
    | cons other others =>
      -- One list of children has ended and the other has not: an end would have to begin a node.
      obtain ⟨event, more, begins, opens⟩ := other.exists_listing_eq_cons
      simp only [listings, begins, List.nil_append, List.cons_append, List.cons.injEq] at same
      exact absurd same.1.symm opens
  | cons node nodes ih =>
    cases others with
    | nil =>
      obtain ⟨event, more, begins, opens⟩ := node.exists_listing_eq_cons
      simp only [listings, begins, List.nil_append, List.cons_append, List.cons.injEq] at same
      exact absurd same.1 opens
    | cons other others =>
      simp only [listings, List.append_assoc] at same
      rw [List.forall_mem_cons] at each bare
      obtain ⟨rfl, onward⟩ := each.1 bare.1 same
      obtain ⟨rfl, rfl⟩ := ih each.2 bare.2 onward
      exact ⟨rfl, rfl⟩

/-- A listing determines the tree, whatever comes after it. -/
theorem listing_append_inj {node other : Node} {rest after : List Event} (bare : Bare node)
    (otherBare : Bare other) (same : node.listing ++ rest = other.listing ++ after) :
    node = other ∧ rest = after := by
  induction bare generalizing other rest after with
  | leaf kind name attributes =>
    cases otherBare
    all_goals simp_all [listing]
  | @tag kind name attributes children bare ih =>
    cases otherBare with
    | @tag kind' name' attributes' children' bare' =>
      simp only [listing, List.cons_append, List.append_assoc, List.nil_append, List.cons.injEq,
        Event.opening.injEq] at same
      obtain ⟨⟨rfl, rfl, rfl⟩, same⟩ := same
      obtain ⟨rfl, rfl⟩ := listings_append_closing_inj ih bare' same
      exact ⟨rfl, rfl⟩
    | leaf => simp [listing] at same
    | text => simp [listing] at same
    | embedded => simp [listing] at same
  | text segments =>
    cases otherBare
    all_goals simp_all [listing]
  | embedded source pieces =>
    cases otherBare
    all_goals simp_all [listing]

end Node

namespace Assembly

/-! ## Operations -/

/-- An operation on an assembly. -/
inductive Operation where
  | openTag (header : Header)
  | closeTag (name : String)
  | addText (segments : List Segment)
  | addEmbedded (source : String) (pieces : List Piece)

/-- What came of an operation. -/
inductive Result where
  | opened (outcome : Opened)
  | closed (outcome : Closed)
  | added
deriving DecidableEq

namespace Operation

/-- Makes an operation, with plain nodes. -/
def apply (operation : Operation) (assembly : Assembly) : Result × Assembly :=
  match operation with
  | openTag header =>
    let (outcome, next) := assembly.openTag .plain header
    (.opened outcome, next)
  | closeTag name =>
    let (outcome, next) := assembly.closeTag name
    (.closed outcome, next)
  | addText segments => (.added, assembly.addText .plain segments)
  | addEmbedded source pieces => (.added, assembly.addEmbedded .plain source pieces)

/-- What an operation says about the tree, given what came of it: a closing tag with nothing to
close says nothing, and neither does an empty text. -/
def event? (operation : Operation) (result : Result) : Option Event :=
  match operation with
  | openTag header =>
    if header.selfClosing then
      some (.leaf (Descent.kindOf header.name) header.name header.attributes)
    else some (.opening (Descent.kindOf header.name) header.name header.attributes)
  | closeTag _ =>
    if result = .closed .ignoredVoid ∨ result = .closed .unmatched then none else some .closing
  | addText segments => if segments.isEmpty then none else some (.text segments)
  | addEmbedded source pieces => some (.embedded source pieces)

end Operation

/-- The results of operations, made in turn. -/
def results (assembly : Assembly) : List Operation → List Result
  | [] => []
  | operation :: rest =>
    let (result, next) := operation.apply assembly
    result :: results next rest

/-- The assembly that comes of operations, made in turn. -/
def run (assembly : Assembly) : List Operation → Assembly
  | [] => assembly
  | operation :: rest => run (operation.apply assembly).2 rest

/-- What operations say about the tree, in turn. -/
def events (assembly : Assembly) (operations : List Operation) : List Event :=
  (operations.zip (assembly.results operations)).filterMap fun made => made.1.event? made.2

/-- Whether an operation finishes a node with nothing open around it. -/
def completes (assembly : Assembly) (operation : Operation) : Bool :=
  let (result, next) := operation.apply assembly
  (operation.event? result).isSome && next.depth == 0

/-- The operations up to the first that finishes a node with nothing open around it. -/
def upToFirst (assembly : Assembly) : List Operation → List Operation
  | [] => []
  | operation :: rest =>
    operation ::
      if assembly.completes operation then [] else upToFirst (operation.apply assembly).2 rest

/-- The listing that operations on an empty assembly come to: the events up to the first node
finished with nothing around it, and an end for each tag that is still open. -/
def listed (operations : List Operation) : List Event :=
  let considered := empty.upToFirst operations
  empty.events considered ++ List.replicate (empty.run considered).depth .closing

/-- The results that opened a node. -/
def opens (results : List Result) : Nat := results.count (.opened .opened)

/-- The results that closed a node. -/
def closes (results : List Result) : Nat :=
  results.count (.closed .inner) + results.count (.closed .root)

theorem events_nil (assembly : Assembly) : assembly.events [] = [] := rfl

theorem events_cons (assembly : Assembly) (operation : Operation) (rest : List Operation) :
    assembly.events (operation :: rest) =
      (operation.event? (operation.apply assembly).1).toList ++
        (operation.apply assembly).2.events rest := by
  unfold events
  rw [results, List.zip_cons_cons, List.filterMap_cons]
  dsimp only
  cases operation.event? (operation.apply assembly).1 with
  | none => rfl
  | some event => rfl

theorem run_append (assembly : Assembly) (before rest : List Operation) :
    assembly.run (before ++ rest) = (assembly.run before).run rest := by
  induction before generalizing assembly with
  | nil => rfl
  | cons operation before ih => exact ih _

/-! ## One operation -/

/-- What an operation can do. -/
inductive Effect (assembly : Assembly) (operation : Operation) (result : Result) (next : Assembly) :
    Prop
  /-- It has nothing to say. -/
  | idle (silent : operation.event? result = none)
    (still : result ∉ [.opened .opened, .closed .inner, .closed .root]) (becomes : next = assembly)
  /-- It opens a tag. -/
  | opening (kind : TagKind) (name : String) (attributes : Attributes)
    (shows : operation.event? result = some (.opening kind name attributes))
    (opened : result = .opened .opened)
    (becomes : next = ⟨.tag kind name attributes [] false :: assembly.stack, assembly.root⟩)
  /-- It adds a node that has no children. -/
  | leaf (node : Node) (event : Event) (shows : operation.event? result = some event)
    (still : result ∉ [.opened .opened, .closed .inner, .closed .root])
    (bare : node.Bare) (listing : node.listing = [event]) (becomes : next = assembly.attach node)
  /-- It closes the innermost node. -/
  | closing (node : Node) (outer : List Node) (shows : operation.event? result = some .closing)
    (closed : result = .closed .inner ∨ result = .closed .root)
    (top : assembly.stack = node :: outer) (becomes : next = attach node ⟨outer, assembly.root⟩)

theorem effect (assembly : Assembly) (operation : Operation) :
    Effect assembly operation (operation.apply assembly).1 (operation.apply assembly).2 := by
  cases operation with
  | openTag header =>
    obtain ⟨name, attributes, selfClosing, terminated⟩ := header
    simp only [Operation.apply, openTag, Descent.ofHeader_plain]
    cases selfClosing with
    | true => exact .leaf _ _ rfl (by simp [apply_ite]) (.leaf _ _ _) rfl rfl
    | false => exact .opening _ _ _ rfl rfl rfl
  | closeTag name =>
    simp only [Operation.apply, closeTag]
    split
    · exact .idle rfl (by simp) rfl
    · split
      · exact .idle rfl (by simp) rfl
      · next node outer top =>
        dsimp only
        split
        · exact .closing node outer rfl (.inr rfl) top rfl
        · exact .closing node outer rfl (.inl rfl) top rfl
  | addText segments =>
    simp only [Operation.apply, addText]
    by_cases none : segments.isEmpty
    · rw [if_pos none]
      exact .idle (if_pos none) (by simp) rfl
    · rw [if_neg none]
      exact .leaf _ _ (if_neg none) (by simp) (.text segments) rfl rfl
  | addEmbedded source pieces =>
    exact .leaf _ _ rfl (by simp [Operation.apply]) (.embedded source pieces) rfl rfl

theorem depth_attach (node : Node) (assembly : Assembly) :
    (assembly.attach node).depth = assembly.depth := by
  obtain ⟨stack, root⟩ := assembly
  cases stack with
  | nil => rfl
  | cons parent outer => rfl

theorem depth_apply (assembly : Assembly) (operation : Operation) :
    (operation.apply assembly).2.depth + closes [(operation.apply assembly).1] =
      assembly.depth + opens [(operation.apply assembly).1] := by
  cases assembly.effect operation with
  | idle silent still becomes => simp_all [opens, closes]
  | opening kind name attributes shows opened becomes =>
    simp [opens, closes, depth, opened, becomes]
  | leaf node event shows still bare listing becomes =>
    rw [becomes, depth_attach]
    simp_all [opens, closes]
  | closing node outer shows closed top becomes =>
    rw [becomes, depth_attach]
    obtain closed | closed := closed
    all_goals simp [opens, closes, depth, closed, top]

/-- The depth is the number of nodes that were opened, less those that were closed. -/
theorem depth_run (assembly : Assembly) (operations : List Operation) :
    (assembly.run operations).depth + closes (assembly.results operations) =
      assembly.depth + opens (assembly.results operations) := by
  induction operations generalizing assembly with
  | nil => rfl
  | cons operation rest ih =>
    have one := assembly.depth_apply operation
    have more := ih (operation.apply assembly).2
    simp only [opens, closes, run, results, List.count_cons, List.count_nil] at one more ⊢
    omega

/-! ## The root -/

theorem root_attach (node : Node) (assembly : Assembly) :
    (assembly.attach node).root =
      if assembly.depth = 0 then assembly.root <|> some node else assembly.root := by
  obtain ⟨stack, root⟩ := assembly
  cases stack with
  | nil => rfl
  | cons parent outer => rfl

theorem isSome_root_attach (node : Node) (assembly : Assembly) :
    (assembly.attach node).root.isSome = (assembly.root.isSome || assembly.depth == 0) := by
  rw [root_attach]
  by_cases alone : assembly.depth = 0
  · simp [alone]
  · simp [alone, beq_false_of_ne alone]

/-- The root is made by the first operation that finishes a node with nothing open around it. -/
theorem isSome_root_apply (assembly : Assembly) (operation : Operation) :
    (operation.apply assembly).2.root.isSome =
      (assembly.root.isSome || assembly.completes operation) := by
  unfold completes
  cases assembly.effect operation with
  | idle silent still becomes => simp [silent, becomes]
  | opening kind name attributes shows opened becomes => simp [becomes, depth]
  | leaf node event shows still bare listing becomes =>
    rw [becomes, isSome_root_attach]
    simp [shows, becomes, depth_attach]
  | closing node outer shows closed top becomes =>
    rw [becomes, isSome_root_attach]
    simp [shows, becomes, depth_attach]

theorem root_apply_eq_none {assembly : Assembly} {operation : Operation}
    (unmade : assembly.root = none) (onward : assembly.completes operation = false) :
    (operation.apply assembly).2.root = none := by
  have made := assembly.isSome_root_apply operation
  rw [unmade, onward] at made
  exact Option.isNone_iff_eq_none.1 (by simp [← Option.not_isSome, made])

/-- The root stays as it is. -/
theorem root_apply {assembly : Assembly} {root : Node} (made : assembly.root = some root)
    (operation : Operation) : (operation.apply assembly).2.root = some root := by
  cases assembly.effect operation with
  | idle silent still becomes => rw [becomes, made]
  | opening kind name attributes shows opened becomes => rw [becomes, made]
  | leaf node event shows still bare listing becomes => simp [becomes, root_attach, made]
  | closing node outer shows closed top becomes => simp [becomes, root_attach, made]

theorem root_run {assembly : Assembly} {root : Node} (made : assembly.root = some root)
    (operations : List Operation) : (assembly.run operations).root = some root := by
  induction operations generalizing assembly with
  | nil => exact made
  | cons operation rest ih => exact ih (root_apply made operation)

theorem finish_of_root {assembly : Assembly} {root : Node} (made : assembly.root = some root) :
    assembly.finish = some root := by
  unfold finish
  split
  · exact made
  · rw [made]
    rfl

/-! ## The first operations -/

theorem exists_eq_upToFirst_append (assembly : Assembly) (operations : List Operation) :
    ∃ rest, operations = assembly.upToFirst operations ++ rest := by
  induction operations generalizing assembly with
  | nil => exact ⟨[], rfl⟩
  | cons operation rest ih =>
    unfold upToFirst
    split
    · exact ⟨rest, rfl⟩
    · obtain ⟨more, same⟩ := ih (operation.apply assembly).2
      exact ⟨more, congrArg (operation :: ·) same⟩

/-- The first operations make the root, and then nothing is open; or they are all there are. -/
theorem upToFirst_cases {assembly : Assembly} (unmade : assembly.root = none)
    (operations : List Operation) :
    ((assembly.run (assembly.upToFirst operations)).root.isSome ∧
      (assembly.run (assembly.upToFirst operations)).depth = 0) ∨
    ((assembly.run (assembly.upToFirst operations)).root = none ∧
      assembly.upToFirst operations = operations) := by
  induction operations generalizing assembly with
  | nil => exact .inr ⟨unmade, rfl⟩
  | cons operation rest ih =>
    unfold upToFirst
    split
    · next completes =>
      have made := assembly.isSome_root_apply operation
      rw [completes, Bool.or_true] at made
      simp only [Assembly.completes, Bool.and_eq_true, beq_iff_eq] at completes
      exact .inl ⟨made, completes.2⟩
    · next onward =>
      obtain first | ⟨none, all⟩ := ih (root_apply_eq_none unmade (Bool.eq_false_iff.2 onward))
      · exact .inl first
      · exact .inr ⟨none, congrArg (operation :: ·) all⟩

/-- What comes after the first operations does not change the tree. -/
theorem finish_upToFirst {assembly : Assembly} (unmade : assembly.root = none)
    (operations : List Operation) :
    (assembly.run operations).finish = (assembly.run (assembly.upToFirst operations)).finish := by
  obtain ⟨made, -⟩ | ⟨-, all⟩ := upToFirst_cases unmade operations
  · obtain ⟨root, made⟩ := Option.isSome_iff_exists.1 made
    obtain ⟨rest, split⟩ := assembly.exists_eq_upToFirst_append operations
    rw [finish_of_root made, split, run_append]
    exact finish_of_root (root_run made rest)
  · rw [all]

/-! ## What an assembly tells -/

/-- A tag that is open, with the children it has so far. -/
structure Open where
  kind : TagKind
  name : String
  attributes : Attributes
  children : List Node
  bare : ∀ child ∈ children, child.Bare

namespace Open

variable (tag : Open)

def node : Node := .tag tag.kind tag.name tag.attributes tag.children false

/-- The events of the tag so far. -/
def events : List Event :=
  .opening tag.kind tag.name tag.attributes :: Node.listings tag.children

/-- The tag with a further child. -/
def add (child : Node) (bare : child.Bare) : Open where
  kind := tag.kind
  name := tag.name
  attributes := tag.attributes
  children := tag.children ++ [child]
  bare := by simpa [or_imp, forall_and] using ⟨tag.bare, bare⟩

theorem node_bare : tag.node.Bare := .tag tag.bare

theorem listing_node : tag.node.listing = tag.events ++ [.closing] := rfl

theorem pushChild_node {child : Node} (bare : child.Bare) :
    tag.node.pushChild child = (tag.add child bare).node := rfl

theorem events_add {child : Node} (bare : child.Bare) :
    (tag.add child bare).events = tag.events ++ child.listing := by
  simp [events, add, Node.listings_concat]

end Open

/-- The events of open tags, of which the innermost is the first. -/
def told : List Open → List Event
  | [] => []
  | tag :: outer => told outer ++ tag.events

/-- What an assembly says about the tree: the listing of the root, or as much as there is of it. -/
inductive Tells : Assembly → List Event → Prop
  | unfinished (tags : List Open) : Tells ⟨tags.map Open.node, none⟩ (told tags)
  | finished (tags : List Open) {root : Node} (bare : root.Bare) :
    Tells ⟨tags.map Open.node, some root⟩ root.listing

namespace Tells

variable {assembly : Assembly} {events : List Event}

theorem attach (tells : Tells assembly events) {node : Node} (bare : node.Bare) :
    Tells (assembly.attach node)
      (if assembly.root.isSome then events else events ++ node.listing) := by
  cases tells with
  | unfinished tags =>
    cases tags with
    | nil => exact .finished [] bare
    | cons tag outer =>
      have added := Tells.unfinished (tag.add node bare :: outer)
      rwa [told, Open.events_add, ← List.append_assoc] at added
  | finished tags rootBare =>
    cases tags with
    | nil => exact .finished [] rootBare
    | cons tag outer => exact .finished (tag.add node bare :: outer) rootBare

theorem apply (tells : Tells assembly events) (operation : Operation) :
    Tells (operation.apply assembly).2
      (if assembly.root.isSome then events
        else events ++ (operation.event? (operation.apply assembly).1).toList) := by
  cases assembly.effect operation with
  | idle silent still becomes => simpa [silent, becomes] using tells
  | opening kind name attributes shows opened becomes =>
    rw [becomes, shows]
    cases tells with
    | unfinished tags => exact .unfinished (⟨kind, name, attributes, [], nofun⟩ :: tags)
    | finished tags bare => exact .finished (⟨kind, name, attributes, [], nofun⟩ :: tags) bare
  | leaf node event shows still bare listing becomes =>
    rw [becomes, shows, Option.toList_some, ← listing]
    exact tells.attach bare
  | closing node outer shows closed top becomes =>
    rw [becomes, shows]
    -- The innermost tag is finished now, so it is told by the one around it, with its end.
    cases tells with
    | unfinished tags =>
      obtain ⟨tag, tags, rfl, rfl, rfl⟩ := List.map_eq_cons_iff.1 top
      have closed := (Tells.unfinished tags).attach tag.node_bare
      rwa [Open.listing_node, ← List.append_assoc] at closed
    | finished tags bare =>
      obtain ⟨tag, tags, rfl, rfl, rfl⟩ := List.map_eq_cons_iff.1 top
      exact (Tells.finished tags bare).attach tag.node_bare

/-- The operations that are considered are told one after the other. -/
theorem run_upToFirst (tells : Tells assembly events) (unmade : assembly.root = none)
    (operations : List Operation) :
    Tells (assembly.run (assembly.upToFirst operations))
      (events ++ assembly.events (assembly.upToFirst operations)) := by
  induction operations generalizing assembly events with
  | nil => simpa [upToFirst, events_nil, Assembly.run] using tells
  | cons operation rest ih =>
    have next := tells.apply operation
    rw [unmade] at next
    unfold upToFirst
    split
    · rw [events_cons]
      simpa [events_nil, Assembly.run] using next
    · next onward =>
      rw [events_cons, ← List.append_assoc]
      exact ih next (root_apply_eq_none unmade (Bool.eq_false_iff.2 onward))

/-- Open nodes that are put into each other end one after the other. -/
theorem exists_foldl_pushChild (tags : List Open) {child : Node} (bare : child.Bare) :
    ∃ root, (tags.map Open.node).foldl (fun child parent => parent.pushChild child) child = root ∧
      root.Bare ∧
      root.listing = told tags ++ child.listing ++ List.replicate tags.length .closing := by
  induction tags generalizing child with
  | nil => exact ⟨child, rfl, bare, by simp [told]⟩
  | cons tag outer ih =>
    obtain ⟨root, same, rootBare, listing⟩ := ih (tag.add child bare).node_bare
    refine ⟨root, ?_, rootBare, ?_⟩
    · rw [List.map_cons, List.foldl_cons, tag.pushChild_node bare, same]
    · rw [listing, Open.listing_node, Open.events_add]
      simp [told, List.replicate_succ]

/-- The tree in the end is the one whose listing was told, or there is none and nothing was. -/
theorem finish (tells : Tells assembly events)
    (closed : assembly.root.isSome → assembly.depth = 0) :
    (assembly.finish = none ∧ events ++ List.replicate assembly.depth .closing = []) ∨
    ∃ node, assembly.finish = some node ∧ node.Bare ∧
      node.listing = events ++ List.replicate assembly.depth .closing := by
  cases tells with
  | unfinished tags =>
    cases tags with
    | nil => exact .inl ⟨rfl, rfl⟩
    | cons tag outer =>
      obtain ⟨root, same, bare, listing⟩ := exists_foldl_pushChild outer tag.node_bare
      refine .inr ⟨root, congrArg some same, bare, ?_⟩
      rw [listing, Open.listing_node]
      simp [told, depth, List.replicate_succ]
  | @finished tags root bare =>
    refine .inr ⟨root, finish_of_root rfl, bare, ?_⟩
    simp [closed rfl]

/-- No tag that closes itself has children, also where a tree is not finished. -/
theorem bare (tells : Tells assembly events) :
    ∀ node, node ∈ assembly.stack ∨ assembly.root = some node → node.Bare := by
  cases tells with
  | unfinished tags =>
    rintro node (stacked | root)
    · obtain ⟨tag, -, rfl⟩ := List.mem_map.1 stacked
      exact tag.node_bare
    · contradiction
  | finished tags bare =>
    rintro node (stacked | root)
    · obtain ⟨tag, -, rfl⟩ := List.mem_map.1 stacked
      exact tag.node_bare
    · cases root
      exact bare

/-- Whatever is made of an assembly that tells something does so too. -/
theorem run (tells : Tells assembly events) (operations : List Operation) :
    ∃ events, Tells (assembly.run operations) events := by
  induction operations generalizing assembly events with
  | nil => exact ⟨events, tells⟩
  | cons operation rest ih => exact ih (tells.apply operation)

end Tells

theorem tells_empty : empty.Tells [] := .unfinished []

/-- The tree that operations come to has their listing, or there is none and that is empty. -/
theorem finish_run_cases (operations : List Operation) :
    ((empty.run operations).finish = none ∧ listed operations = []) ∨
    ∃ node, (empty.run operations).finish = some node ∧ node.Bare ∧
      node.listing = listed operations := by
  have unmade : empty.root = none := rfl
  rw [finish_upToFirst unmade]
  refine (tells_empty.run_upToFirst unmade operations).finish fun made => ?_
  obtain ⟨-, closed⟩ | ⟨none, -⟩ := upToFirst_cases unmade operations
  · exact closed
  · simp [none] at made

/-- There is a root once a node was finished with nothing open around it. -/
theorem exists_root_of_completes {assembly : Assembly} {before : List Operation}
    {operation : Operation} (completes : (assembly.run before).completes operation) :
    ∃ root, (assembly.run (before ++ [operation])).root = some root := by
  rw [← Option.isSome_iff_exists, run_append]
  exact (isSome_root_apply _ operation).trans (by simp [completes])

end Assembly

/-- **An assembly makes the tree that it is told.**  For any operations on an empty assembly: the
depth is the number of nodes opened less that of nodes closed; the tree in the end is the one, and
the only one, whose listing is that of the operations (`Assembly.listed`), and there is none if
they say nothing; once an operation has finished a node with nothing open around it, there is a
root, which no other operation changes; and no tag that closes itself has children. -/
theorem assembled_listing (operations : List Assembly.Operation) :
    (Assembly.empty.run operations).depth + Assembly.closes (Assembly.empty.results operations) =
      Assembly.opens (Assembly.empty.results operations) ∧
    (∀ node, (Assembly.empty.run operations).finish = some node ↔
      node.Bare ∧ node.listing = Assembly.listed operations) ∧
    ((Assembly.empty.run operations).finish = none ↔ Assembly.listed operations = []) ∧
    (∀ before operation more, operations = before ++ operation :: more →
      (Assembly.empty.run before).completes operation →
      ∃ root, (Assembly.empty.run (before ++ [operation])).root = some root ∧
        (Assembly.empty.run operations).root = some root ∧
        (Assembly.empty.run operations).finish = some root) ∧
    ∀ node, node ∈ (Assembly.empty.run operations).stack ∨
      (Assembly.empty.run operations).root = some node → node.Bare := by
  obtain ⟨events, tells⟩ := Assembly.tells_empty.run operations
  have ends := Assembly.finish_run_cases operations
  refine ⟨?_, fun node => ?_, ?_, ?_, tells.bare⟩
  · exact (Assembly.empty.depth_run operations).trans (Nat.zero_add _)
  · obtain ⟨none, silent⟩ | ⟨tree, made, bare, listing⟩ := ends
    · rw [none, silent]
      exact ⟨nofun, fun ⟨_, lists⟩ => absurd lists node.listing_ne_nil⟩
    · rw [made, ← listing]
      constructor
      · rintro ⟨⟩
        exact ⟨bare, rfl⟩
      · rintro ⟨otherBare, same⟩
        obtain ⟨rfl, -⟩ := Node.listing_append_inj bare otherBare (congrArg (· ++ []) same.symm)
        rfl
  · obtain ⟨none, silent⟩ | ⟨tree, made, bare, listing⟩ := ends
    · exact ⟨fun _ => silent, fun _ => none⟩
    · rw [made, ← listing]
      exact ⟨nofun, fun empty => absurd empty tree.listing_ne_nil⟩
  · rintro before operation more rfl completes
    obtain ⟨root, made⟩ := Assembly.exists_root_of_completes completes
    have stays := Assembly.root_run made more
    rw [← Assembly.run_append, List.append_assoc, List.singleton_append] at stays
    exact ⟨root, made, stays, Assembly.finish_of_root stays⟩

/-- Closing tags with nothing to close and an empty text, a void element that is left open, a
closing tag of another name, and more after the root. -/
theorem assembled_listing_stray :
    let before : List Assembly.Operation :=
      [.closeTag "p", .closeTag "br", .addText [], .openTag ⟨"p", [], false, true⟩,
        .openTag ⟨"br", [], false, true⟩, .addText [.literal "x"], .closeTag "img", .closeTag "br",
        .openTag ⟨"img", [], true, true⟩]
    let operations := before ++ .closeTag "q" ::
      [.addText [.literal "y"], .openTag ⟨"q", [], false, true⟩]
    (Assembly.empty.run before).completes (.closeTag "q") ∧
      Assembly.empty.results operations =
        [.closed .unmatched, .closed .ignoredVoid, .added, .opened .opened, .opened .opened, .added,
          .closed .ignoredVoid, .closed .inner, .opened .leaf, .closed .root, .added,
          .opened .opened] ∧
      (Assembly.empty.run operations).depth = 1 ∧
      ∃ root, (Assembly.empty.run operations).finish = some root ∧ root.Bare ∧
        root.listing = [.opening .element "p" [], .opening .element "br" [],
          .text [.literal "x"], .closing, .leaf .element "img" [], .closing] := by
  intro before operations
  have completes : (Assembly.empty.run before).completes (.closeTag "q") := by decide +kernel
  have results : Assembly.empty.results operations = [.closed .unmatched, .closed .ignoredVoid,
      .added, .opened .opened, .opened .opened, .added, .closed .ignoredVoid, .closed .inner,
      .opened .leaf, .closed .root, .added, .opened .opened] := by
    decide +kernel
  obtain ⟨depth, trees, -, roots, -⟩ := assembled_listing operations
  obtain ⟨root, -, -, made⟩ := roots before _ _ rfl completes
  obtain ⟨bare, listing⟩ := (trees root).1 made
  refine ⟨completes, results, ?_, root, made, bare, listing⟩
  rw [results] at depth
  simpa [Assembly.opens, Assembly.closes] using depth

end InlineMarkup
