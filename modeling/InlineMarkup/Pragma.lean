import InlineMarkup.Config
import InlineMarkup.Text.Pattern

/-!
# InlineMarkup.Pragma

A comment in the source may name the function to call for markup, as in
`/* @jsx dom */`.  A comment is taken to start at any `//` or `/*`, and the
first one from which such a name can be reached counts.

What counts is said by a `pattern`.  `first?` states the same rule by readers, start
by start.  `detect?` finds the same name in one pass from the end of the text
(`detect?_eq_first?`), so that a text with many starts is not read again for each
of them.
-/

namespace InlineMarkup.Pragma

open Text (Pattern)
open Unicode (isSpace)

/-! ## The pattern -/

/-- What may stand in a block comment before the keyword: `(?:[^*]|\*+[^*/])*?`. -/
def blockPattern : Pattern :=
  .many false (.alt (.one (.except ['*']))
    (.seq (.atLeastOnce true (.one (.among ['*']))) (.one (.except ['*', '/']))))

/-- What may stand in a line comment before the keyword: `[^\n]*?`. -/
def linePattern : Pattern := .many false (.one (.except ['\n']))

/-- The keyword and the name: `@jsx[ \t]+([^\s*]+)`. -/
def namePattern : Pattern :=
  .seq (.literal ['@', 'j', 's', 'x'])
    (.seq (.atLeastOnce true (.one (.among [' ', '\t'])))
      (.group (.atLeastOnce true (.one (.visibleExcept ['*'])))))

/-- A comment up to the name: `(?:/\*(?:[^*]|\*+[^*/])*?|//[^\n]*?)@jsx[ \t]+([^\s*]+)`. -/
def pattern : Pattern :=
  .seq (.alt (.seq (.literal ['/', '*']) blockPattern) (.seq (.literal ['/', '/']) linePattern))
    namePattern

/-! ## Start by start -/

/-- Whether `c` may separate the keyword from the name. -/
def isBlank (c : Char) : Bool := c == ' ' || c == '\t'

/-- Whether `c` may stand in the name. -/
def isNameChar (c : Char) : Bool := !isSpace c && c != '*'

/-- The keyword. -/
def keyword : List Char := ['@', 'j', 's', 'x']

/-- The name that a text starting with the keyword, blanks and a name gives. -/
def nameHere? (text : List Char) : Option (List Char) :=
  if keyword.isPrefixOf text then
    let following := text.drop keyword.length
    let name := (following.dropWhile isBlank).takeWhile isNameChar
    if following.head?.any isBlank ∧ !name.isEmpty then some name else none
  else none

/-- The first name in the rest of a line comment. -/
def inLine? : List Char → Option (List Char)
  | [] => none
  | c :: rest =>
    match nameHere? (c :: rest) with
    | some name => some name
    | none => if c = '\n' then none else inLine? rest

/-- The first name in the rest of a block comment; `star` says whether a star
was just read, directly after which a keyword does not count. -/
def inBlock? (star : Bool) : List Char → Option (List Char)
  | [] => none
  | c :: rest =>
    match if star then none else nameHere? (c :: rest) with
    | some name => some name
    | none => if star ∧ c = '/' then none else inBlock? (c == '*') rest

/-- The name that a text gives if a slash stands before it: the text must go on
to open a comment. -/
def afterSlash? : List Char → Option (List Char)
  | '/' :: comment => inLine? comment
  | '*' :: comment => inBlock? false comment
  | _ => none

/-- The name given by the first comment that gives one. -/
def first? : List Char → Option (List Char)
  | [] => none
  | c :: rest => (if c = '/' then afterSlash? rest else none) <|> first? rest

/-! ## In one pass -/

/-- The names that can be reached from a place in a text. -/
structure Reach where
  /-- What follows the place. -/
  rest : List Char
  /-- The name, if the place is in a line comment. -/
  line : Option (List Char)
  /-- The name, if the place is in a block comment. -/
  block : Option (List Char)
  /-- The name, if the place is in a block comment, after a star. -/
  starred : Option (List Char)
  /-- The name, if a slash stands before the place. -/
  slashed : Option (List Char)
  /-- The name of the first comment from the place on. -/
  first : Option (List Char)

namespace Reach

/-- The names that can be reached from the end. -/
def atEnd : Reach := ⟨[], none, none, none, none, none⟩

/-- The names that can be reached from one character earlier. -/
def extend (c : Char) (later : Reach) : Reach :=
  let rest := c :: later.rest
  let here := nameHere? rest
  let after := if c = '*' then later.starred else later.block
  { rest
    line := here <|> if c = '\n' then none else later.line
    block := here <|> after
    starred := if c = '/' then none else after
    slashed := if c = '/' then later.line else if c = '*' then later.block else none
    first := (if c = '/' then later.slashed else none) <|> later.first }

/-- The names that can be reached from the start of a text. -/
def ofText (text : List Char) : Reach := text.foldr extend atEnd

end Reach

/-- The name given by the first comment that gives one. -/
def detect? (text : List Char) : Option (List Char) := (Reach.ofText text).first

/-- One pass finds what the readers find, each from the start of the text. -/
theorem Reach.ofText_eq (text : List Char) :
    Reach.ofText text =
      ⟨text, inLine? text, inBlock? false text, inBlock? true text, afterSlash? text,
        first? text⟩ := by
  induction text with
  | nil => rfl
  | cons c rest ih =>
    have after : (if c = '*' then inBlock? true rest else inBlock? false rest)
        = inBlock? (c == '*') rest := by
      by_cases star : c = '*'
      · simp [star]
      · rw [if_neg star, beq_false_of_ne star]
    rw [ofText, List.foldr_cons, ← ofText, ih, extend]
    simp only [after]
    congr 1
    · rw [inLine?]; cases nameHere? (c :: rest) <;> rfl
    · rw [inBlock?]; cases nameHere? (c :: rest) <;> simp
    · rw [inBlock?]; simp
    · by_cases slash : c = '/'
      · subst slash; rfl
      · by_cases star : c = '*'
        · subst star; rfl
        · simp [afterSlash?, slash, star]

/-- The name found is that of the first comment that gives one. -/
theorem detect?_eq_first? (text : List Char) : detect? text = first? text := by
  rw [detect?, Reach.ofText_eq]

end InlineMarkup.Pragma

namespace InlineMarkup.Config

/-- The settings for one source: a pragma in it, if honoured, names the
function for elements and components and leaves texts bare.  `none` if there
is nothing to apply. -/
def pragma? (config : Config) (source : String) : Option Config :=
  if config.pragma then
    (Pragma.detect? source.toList).map fun name => config.withFactory (String.ofList name)
  else none

/-- The settings for one source. -/
def resolve (config : Config) (source : String) : Config := (config.pragma? source).getD config

end InlineMarkup.Config
