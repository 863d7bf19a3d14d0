import InlineMarkup.Text.Bytes

/-!
# InlineMarkup.Text.Position

Places in a text: a byte offset with the line and column it falls on.  Lines
and columns start at one and columns count characters.  A position is kept
up to date one character at a time (`step`); `after_cons` says that this gives
the position counted from scratch (`after`).
-/

namespace InlineMarkup

/-- A place in a text. -/
structure Position where
  /-- Bytes before the place. -/
  offset : Nat
  /-- One more than the line feeds before the place. -/
  line : Nat
  /-- One more than the characters since the last line feed. -/
  column : Nat
deriving DecidableEq, Inhabited

namespace Position

/-- The start of a text. -/
def start : Position := ⟨0, 1, 1⟩

/-- The place after one more character. -/
def step (p : Position) (c : Char) : Position :=
  if c = '\n' then ⟨p.offset + c.utf8Size, p.line + 1, 1⟩
  else ⟨p.offset + c.utf8Size, p.line, p.column + 1⟩

/-- The place after the characters `seen`, nearest first, by counting. -/
def after (seen : List Char) : Position where
  offset := Text.byteCount seen
  line := 1 + seen.count '\n'
  column := 1 + (seen.takeWhile (· ≠ '\n')).length

@[simp] theorem after_nil : after [] = start := rfl

/-- Counting and stepping agree. -/
theorem after_cons (c : Char) (seen : List Char) : after (c :: seen) = (after seen).step c := by
  by_cases h : c = '\n' <;> simp [after, step, h] <;> omega

/-- A place as messages write it: line and column. -/
def text (p : Position) : String := s!"{p.line}:{p.column}"

end Position

end InlineMarkup
