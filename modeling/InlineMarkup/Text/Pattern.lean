import InlineMarkup.Unicode.Space

/-!
# InlineMarkup.Text.Pattern

Patterns for text, read leftmost first.  A pattern may match a text in many ways,
and `Pattern.ways` lists them in the order in which they are tried: of two
alternatives the first one is tried first, and what may be repeated is repeated
as often as possible first, or as seldom as possible.  A search takes the first
place where there is a way at all, and the first way there.
-/

namespace InlineMarkup.Text

/-- A set of characters. -/
structure CharClass where
  /-- Whether the set holds all characters but those that are named. -/
  negated : Bool
  /-- Characters that are named. -/
  chars : List Char
  /-- Whether white space is named as well. -/
  space : Bool
deriving DecidableEq, Inhabited

namespace CharClass

/-- The characters listed. -/
def among (chars : List Char) : CharClass := ⟨false, chars, false⟩

/-- All characters but those listed. -/
def except (chars : List Char) : CharClass := ⟨true, chars, false⟩

/-- All characters but white space and those listed. -/
def visibleExcept (chars : List Char) : CharClass := ⟨true, chars, true⟩

/-- Whether a character is in the set. -/
def holds (set : CharClass) (c : Char) : Bool :=
  set.negated != (set.chars.contains c || set.space && Unicode.isSpace c)

end CharClass

/-- A pattern. -/
inductive Pattern where
  /-- A certain text. -/
  | literal (text : List Char)
  /-- One character of a set. -/
  | one (set : CharClass)
  /-- One pattern after another. -/
  | seq (first second : Pattern)
  /-- One pattern or another. -/
  | alt (first second : Pattern)
  /-- A pattern any number of times. -/
  | many (greedy : Bool) (body : Pattern)
  /-- A pattern whose match is taken note of. -/
  | group (body : Pattern)
deriving DecidableEq, Inhabited

namespace Pattern

/-- A pattern at least once. -/
def atLeastOnce (greedy : Bool) (body : Pattern) : Pattern := seq body (many greedy body)

/-- How far a match has come. -/
structure Way where
  /-- What is left of the text. -/
  rest : List Char
  /-- The match of the last group, if there was one. -/
  group : Option (List Char)
deriving DecidableEq

/-- The ways to do something up to so many times, each time reading something.  As
many times as there are characters are enough. -/
def turns (greedy : Bool) (once : Way → List Way) : Nat → Way → List Way
  | 0, way => [way]
  | count + 1, way =>
    let further := (once way).filter fun next => next.rest.length < way.rest.length
    let more := further.flatMap (turns greedy once count)
    if greedy then more ++ [way] else way :: more

/-- The ways to match a pattern from a place, in the order in which they are tried. -/
def ways : Pattern → Way → List Way
  | literal text, way =>
    if text.isPrefixOf way.rest then [⟨way.rest.drop text.length, way.group⟩] else []
  | one set, way =>
    match way.rest with
    | [] => []
    | c :: rest => if set.holds c then [⟨rest, way.group⟩] else []
  | seq first second, way => (ways first way).flatMap (ways second)
  | alt first second, way => ways first way ++ ways second way
  | many greedy body, way => turns greedy (ways body) way.rest.length way
  | group body, way =>
    (ways body way).map fun next =>
      ⟨next.rest, some (way.rest.take (way.rest.length - next.rest.length))⟩

/-- The first way at the first place where there is one. -/
def search (pattern : Pattern) : List Char → Option Way
  | [] => (pattern.ways ⟨[], none⟩).head?
  | c :: rest => (pattern.ways ⟨c :: rest, none⟩).head? <|> search pattern rest

/-- The match of the group in the first match of a pattern. -/
def capture? (pattern : Pattern) (text : List Char) : Option (List Char) :=
  (pattern.search text).bind Way.group

end Pattern

end InlineMarkup.Text
