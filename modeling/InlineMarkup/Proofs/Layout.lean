import InlineMarkup.Proofs.Descent

/-!
# InlineMarkup.Proofs.Layout

Trees that can be written as markup, and all the ways to write them.  A tree
that is `Node.WellFormed` holds nothing that markup has no place for: names that
end where the markup ends them, code whose braces pair up, texts that are not
next to each other.  How such a tree is written is a relation, for the layout is
free:

* before each attribute stands white space, and around its equals sign, inside
  braces, before `>` and `/` and around the name of a closing tag may stand
  any (`Blank`);
* between tags, expressions and literal texts may stand white space with a line
  feed in it (`Layout`), except next to white space that a literal text starts
  or ends with, which it would take away;
* a string stands between quotes of any kind that it does not hold, and the
  slash of a void element may be left out.

`Layout.exists_tagText` says that every well-formed tree can be written.
-/

namespace InlineMarkup

open Unicode (isSpace)

namespace Text

/-- White space. -/
def Blank (text : List Char) : Prop := ∀ c ∈ text, isSpace c = true

/-- White space that lays out lines: with a line feed in it, or none at all. -/
def Layout (text : List Char) : Prop := text = [] ∨ Blank text ∧ '\n' ∈ text

/-- Braces pair up: there are as many that close as open, and no more of them
up to any place. -/
def Balanced (code : List Char) : Prop :=
  code.count '\x7b' = code.count '\x7d' ∧
    ∀ n, (code.take n).count '\x7d' ≤ (code.take n).count '\x7b'

instance (text : List Char) : Decidable (Blank text) :=
  List.decidableBAll (fun c => isSpace c = true) text

instance (text : List Char) : Decidable (Layout text) :=
  inferInstanceAs (Decidable (text = [] ∨ Blank text ∧ '\n' ∈ text))

/-- Past the end of the code there is nothing more to count. -/
theorem balanced_iff (code : List Char) :
    Balanced code ↔ code.count '\x7b' = code.count '\x7d' ∧
      ∀ n < code.length + 1, (code.take n).count '\x7d' ≤ (code.take n).count '\x7b' := by
  constructor
  · rintro ⟨total, never⟩
    exact ⟨total, fun n _ => never n⟩
  · rintro ⟨total, never⟩
    refine ⟨total, fun n => ?_⟩
    by_cases inside : n < code.length + 1
    · exact never n inside
    · rw [List.take_of_length_le (by omega)]
      omega

instance (code : List Char) : Decidable (Balanced code) := decidable_of_iff' _ (balanced_iff code)

theorem blank_nil : Blank [] := by
  intro c mem
  contradiction

end Text

/-! ## Well-formed trees -/

/-- A name that a tag can have. -/
structure TagName (name : String) : Prop where
  starts : name.toList.head?.any Name.isStart = true
  plain : ∀ c ∈ name.toList, isSpace c = false ∧ c ≠ '/' ∧ c ≠ '>'

instance (name : String) : Decidable (TagName name) :=
  have := List.decidableBAll (fun c => isSpace c = false ∧ c ≠ '/' ∧ c ≠ '>') name.toList
  decidable_of_iff (name.toList.head?.any Name.isStart = true ∧
      ∀ c ∈ name.toList, isSpace c = false ∧ c ≠ '/' ∧ c ≠ '>')
    ⟨fun ⟨starts, plain⟩ => ⟨starts, plain⟩, fun ⟨starts, plain⟩ => ⟨starts, plain⟩⟩

/-- A name that an attribute can have. -/
structure AttrName (name : String) : Prop where
  nonempty : name ≠ ""
  noBrace : name.toList.head? ≠ some '\x7b'
  plain : ∀ c ∈ name.toList, isSpace c = false ∧ c ≠ '=' ∧ c ≠ '>' ∧ c ≠ '/'

instance (name : String) : Decidable (AttrName name) :=
  have := List.decidableBAll (fun c => isSpace c = false ∧ c ≠ '=' ∧ c ≠ '>' ∧ c ≠ '/') name.toList
  decidable_of_iff (name ≠ "" ∧ name.toList.head? ≠ some '\x7b' ∧
      ∀ c ∈ name.toList, isSpace c = false ∧ c ≠ '=' ∧ c ≠ '>' ∧ c ≠ '/')
    ⟨fun ⟨nonempty, noBrace, plain⟩ => ⟨nonempty, noBrace, plain⟩,
      fun ⟨nonempty, noBrace, plain⟩ => ⟨nonempty, noBrace, plain⟩⟩

/-- Code that braces can hold as it is. -/
structure PlainCode (code : String) : Prop where
  trimmed : Text.trim code.toList = code.toList
  balanced : Text.Balanced code.toList
  noMarkup : Host.containsMarkup code.toList = false

instance (code : String) : Decidable (PlainCode code) :=
  decidable_of_iff (Text.trim code.toList = code.toList ∧ Text.Balanced code.toList ∧
      Host.containsMarkup code.toList = false)
    ⟨fun ⟨trimmed, balanced, noMarkup⟩ => ⟨trimmed, balanced, noMarkup⟩,
      fun ⟨trimmed, balanced, noMarkup⟩ => ⟨trimmed, balanced, noMarkup⟩⟩

/-- Whether a string can stand between two of these. -/
def IsQuote (c : Char) : Prop := c = '"' ∨ c = '\'' ∨ c = '\x60'

/-- A value that can be written: a string must leave a kind of quote free. -/
def AttrValue.WellFormed : AttrValue → Prop
  | .flag => True
  | .string value => ∃ quote, IsQuote quote ∧ quote ∉ value.toList
  | .expression code => PlainCode code
  | .nested _ _ => False

/-- A segment that can be written.  Literal text is free of what would end it,
and of line feeds, which would change it. -/
def Segment.WellFormed : Segment → Prop
  | .literal text =>
    text ≠ "" ∧ ∀ c ∈ text.toList, c ≠ '<' ∧ c ≠ '\x7b' ∧ c ≠ '/' ∧ c ≠ '\n'
  | .expression code => PlainCode code ∧ isCommentOnly code.toList = false

instance : (segment : Segment) → Decidable segment.WellFormed
  | .literal text =>
    have := List.decidableBAll (fun c => c ≠ '<' ∧ c ≠ '\x7b' ∧ c ≠ '/' ∧ c ≠ '\n') text.toList
    instDecidableAnd
  | .expression _ => instDecidableAnd

/-- No two neighbours in a list both are `p`. -/
def Apart {α : Type} (p : α → Bool) : List α → Prop
  | first :: second :: rest => ¬ (p first = true ∧ p second = true) ∧ Apart p (second :: rest)
  | _ => True

theorem Apart.tail {α : Type} {p : α → Bool} {first : α} {rest : List α}
    (apart : Apart p (first :: rest)) : Apart p rest := by
  cases rest with
  | nil => trivial
  | cons second rest => exact apart.2

/-- Whether a segment is literal text. -/
def Segment.isLiteral : Segment → Bool
  | .literal _ => true
  | .expression _ => false

namespace Node

/-- Whether a node is a run of text. -/
def isText : Node → Bool
  | text _ => true
  | _ => false

/-- A tree that can be written. -/
inductive WellFormed : Node → Prop
  | text {segments : List Segment} (nonempty : segments ≠ [])
      (each : ∀ segment ∈ segments, segment.WellFormed) (apart : Apart Segment.isLiteral segments) :
      WellFormed (.text segments)
  | tag {name : String} {attributes : Attributes} {children : List Node} {selfClosing : Bool}
      (named : TagName name) (void : Name.isVoid name = true → selfClosing = true)
      (leaf : selfClosing = true → children = [])
      (names : ∀ entry ∈ attributes, AttrName entry.1) (distinct : attributes.names.Nodup)
      (values : ∀ entry ∈ attributes, entry.2.WellFormed)
      (each : ∀ child ∈ children, WellFormed child) (apart : Apart isText children) :
      WellFormed (.tag (Descent.kindOf name) name attributes children selfClosing)

end Node

/-! ## Written trees -/

namespace Layout

open Text (Blank Layout)

/-- Code in braces, with white space around it. -/
def braced (left code right : List Char) : List Char :=
  '\x7b' :: (left ++ (code ++ (right ++ ['\x7d'])))

/-- What follows the name of an attribute. -/
inductive ValueText : AttrValue → List Char → Prop
  | flag : ValueText .flag []
  | string {value : String} {before after : List Char} {quote : Char} (left : Blank before)
      (right : Blank after) (quoted : IsQuote quote) (avoided : quote ∉ value.toList) :
      ValueText (.string value)
        (before ++ '=' :: (after ++ quote :: (value.toList ++ [quote])))
  | expression {code : String} {before after inner outer : List Char} (left : Blank before)
      (right : Blank after) (opening : Blank inner) (closing : Blank outer) :
      ValueText (.expression code) (before ++ '=' :: (after ++ braced inner code.toList outer))

/-- The attributes of a tag. -/
inductive AttributesText : Attributes → List Char → Prop
  | nil : AttributesText [] []
  | cons {name : String} {value : AttrValue} {attributes : Attributes}
      {space text rest : List Char} (blank : Blank space) (nonempty : space ≠ [])
      (first : ValueText value text) (more : AttributesText attributes rest) :
      AttributesText ((name, value) :: attributes) (space ++ (name.toList ++ (text ++ rest)))

/-- The end of an opening tag, with or without a slash. -/
inductive EndText : Bool → List Char → Prop
  | plain {space : List Char} (blank : Blank space) : EndText false (space ++ ['>'])
  | slash {space inner : List Char} (blank : Blank space) (between : Blank inner) :
      EndText true (space ++ '/' :: (inner ++ ['>']))

/-- A closing tag. -/
def closingText (before : List Char) (name : String) (after : List Char) : List Char :=
  '<' :: '/' :: (before ++ (name.toList ++ (after ++ ['>'])))

/-- What stands between tags and expressions: literal text, if any, and layout.
Layout takes away the white space next to it, so a literal text that starts or
ends with white space has none there. -/
inductive GapText : Option String → List Char → Prop
  | none {space : List Char} (layout : Layout space) : GapText none space
  | literal {text : String} {before after : List Char} (left : Layout before)
      (right : Layout after) (start : before ≠ [] → Text.trimStart text.toList = text.toList)
      (stop : after ≠ [] → Text.trimEnd text.toList = text.toList) :
      GapText (some text) (before ++ (text.toList ++ after))

/-- The segment of a literal text, if there is one. -/
def literals (literal : Option String) : List Segment := literal.toList.map .literal

/-- Everything between two tags: expressions, with gaps around them. -/
inductive RunText : List Segment → List Char → Prop
  | last {literal : Option String} {text : List Char} (gap : GapText literal text) :
      RunText (literals literal) text
  | expression {literal : Option String} {code : String} {segments : List Segment}
      {text left right rest : List Char} (gap : GapText literal text) (opening : Blank left)
      (closing : Blank right) (more : RunText segments rest) :
      RunText (literals literal ++ .expression code :: segments)
        (text ++ (braced left code.toList right ++ rest))

mutual

/-- A tag with its content. -/
inductive TagText : Node → List Char → Prop
  | leaf {kind : TagKind} {name : String} {attributes : Attributes} {slash : Bool}
      {header ending : List Char} (written : AttributesText attributes header)
      (ends : EndText slash ending) (closed : slash = true ∨ Name.isVoid name = true) :
      TagText (.tag kind name attributes [] true) ('<' :: (name.toList ++ (header ++ ending)))
  | element {kind : TagKind} {name : String} {attributes : Attributes} {children : List Node}
      {header ending inner before after : List Char} (written : AttributesText attributes header)
      (ends : EndText false ending) (inside : ContentText children inner) (left : Blank before)
      (right : Blank after) :
      TagText (.tag kind name attributes children false)
        ('<' :: (name.toList ++ (header ++ (ending ++ (inner ++ closingText before name after)))))

/-- The content of a tag: tags, with texts around them. -/
inductive ContentText : List Node → List Char → Prop
  | last {segments : List Segment} {text : List Char} (run : RunText segments text) :
      ContentText (Descent.textNodes segments) text
  | tag {segments : List Segment} {node : Node} {nodes : List Node} {text tag rest : List Char}
      (run : RunText segments text) (first : TagText node tag) (more : ContentText nodes rest) :
      ContentText (Descent.textNodes segments ++ node :: nodes) (text ++ (tag ++ rest))

end

/-! ## Every well-formed tree can be written -/

theorem exists_valueText {value : AttrValue} (wellFormed : value.WellFormed) :
    ∃ text, ValueText value text := by
  cases value with
  | flag => exact ⟨_, .flag⟩
  | string value =>
    obtain ⟨quote, quoted, avoided⟩ := wellFormed
    exact ⟨_, .string Text.blank_nil Text.blank_nil quoted avoided⟩
  | expression code =>
    exact ⟨_, .expression Text.blank_nil Text.blank_nil Text.blank_nil Text.blank_nil⟩
  | nested source pieces => exact wellFormed.elim

theorem exists_attributesText {attributes : Attributes}
    (wellFormed : ∀ entry ∈ attributes, entry.2.WellFormed) :
    ∃ text, AttributesText attributes text := by
  induction attributes with
  | nil => exact ⟨_, .nil⟩
  | cons entry attributes ih =>
    obtain ⟨head, tail⟩ := List.forall_mem_cons.1 wellFormed
    obtain ⟨text, first⟩ := exists_valueText head
    obtain ⟨rest, more⟩ := ih tail
    have blank : Blank [' '] := by
      intro c mem
      obtain rfl := List.mem_singleton.1 mem
      decide
    exact ⟨_, .cons blank (List.cons_ne_nil _ _) first more⟩

theorem gapText_literal (text : String) : GapText (some text) ([] ++ (text.toList ++ [])) :=
  .literal (.inl rfl) (.inl rfl) (absurd rfl) (absurd rfl)

/-- Literal texts that are apart have expressions between them. -/
theorem exists_runText : {segments : List Segment} → Apart Segment.isLiteral segments →
    ∃ text, RunText segments text
  | [], _ => ⟨_, .last (.none (.inl rfl))⟩
  | [.literal text], _ => ⟨_, .last (gapText_literal text)⟩
  | .expression code :: rest, apart => by
    obtain ⟨text, more⟩ := exists_runText apart.tail
    exact ⟨_, .expression (.none (.inl rfl)) Text.blank_nil Text.blank_nil more⟩
  | .literal text :: .expression code :: rest, apart => by
    obtain ⟨following, more⟩ := exists_runText apart.tail.tail
    exact ⟨_, .expression (gapText_literal text) Text.blank_nil Text.blank_nil more⟩
  | .literal _ :: .literal _ :: _, apart => absurd ⟨rfl, rfl⟩ apart.1

/-- A run that has a node has segments. -/
theorem textNodes_of_ne_nil {segments : List Segment} (nonempty : segments ≠ []) :
    Descent.textNodes segments = [.text segments] := by
  cases segments with
  | nil => contradiction
  | cons segment segments => rfl

/-- Texts that are apart have tags between them. -/
theorem exists_contentText : {children : List Node} → Apart Node.isText children →
    (∀ child ∈ children, child.WellFormed) →
    (∀ child ∈ children, child.isText = false → ∃ text, TagText child text) →
    ∃ text, ContentText children text
  | [], _, _, _ => ⟨_, .last (.last (.none (.inl rfl)))⟩
  | .text segments :: rest, apart, each, tags => by
    cases each _ List.mem_cons_self with
    | text nonempty segment literals =>
      obtain ⟨text, run⟩ := exists_runText literals
      cases rest with
      | nil =>
        have written := ContentText.last run
        rw [textNodes_of_ne_nil nonempty] at written
        exact ⟨_, written⟩
      | cons child rest =>
        have notText : child.isText = false := by
          cases isText : child.isText with
          | false => rfl
          | true => exact absurd ⟨rfl, isText⟩ apart.1
        obtain ⟨_, tailEach⟩ := List.forall_mem_cons.1 each
        obtain ⟨_, tailTags⟩ := List.forall_mem_cons.1 tags
        obtain ⟨tag, first⟩ := tailTags child List.mem_cons_self notText
        obtain ⟨following, more⟩ := exists_contentText apart.tail.tail
          (List.forall_mem_cons.1 tailEach).2 (List.forall_mem_cons.1 tailTags).2
        have written := ContentText.tag run first more
        rw [textNodes_of_ne_nil nonempty] at written
        exact ⟨_, written⟩
  | .tag kind name attributes children selfClosing :: rest, apart, each, tags => by
    obtain ⟨tag, first⟩ := tags _ List.mem_cons_self rfl
    obtain ⟨following, more⟩ := exists_contentText apart.tail
      (List.forall_mem_cons.1 each).2 (List.forall_mem_cons.1 tags).2
    exact ⟨_, .tag (.last (.none (.inl rfl))) first more⟩
  | .embedded source pieces :: rest, _, each, _ => by cases each _ List.mem_cons_self

/-- Every well-formed tag can be written. -/
theorem exists_tagText {node : Node} (wellFormed : node.WellFormed) (tag : node.isText = false) :
    ∃ text, TagText node text := by
  induction wellFormed with
  | text => contradiction
  | @tag name attributes children selfClosing named void leaf names distinct values each apart ih =>
    obtain ⟨header, written⟩ := exists_attributesText values
    cases selfClosing with
    | true =>
      rw [leaf rfl]
      exact ⟨_, .leaf written (.slash Text.blank_nil Text.blank_nil) (.inl rfl)⟩
    | false =>
      obtain ⟨inner, inside⟩ := exists_contentText apart each ih
      exact ⟨_, .element written (.plain Text.blank_nil) inside Text.blank_nil Text.blank_nil⟩

end Layout

end InlineMarkup
