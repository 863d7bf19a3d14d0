import InlineMarkup.Text.Extent
import InlineMarkup.Text.Position
import InlineMarkup.Unicode.Space

/-!
# InlineMarkup.Text.Cursor

A place in a text together with the text around it.  Every movement of a
cursor is an `advance`, so what a movement keeps is proved for `advance` alone:

* `source_advance`: the text stays the same;
* `advance_counted`: the position stays the one counted from scratch;
* `Reaches`: one cursor stands at or after another in the same text.
-/

namespace InlineMarkup

open Unicode (isSpace)

/-- A place in a text: what was read, what is left, and where that is. -/
structure Cursor where
  /-- The characters read, nearest first. -/
  seen : List Char
  /-- The characters left. -/
  rest : List Char
  /-- The place between them. -/
  position : Position
deriving DecidableEq, Inhabited

namespace Cursor

/-- A cursor at the start of a text. -/
def ofList (text : List Char) : Cursor := ⟨[], text, .start⟩

/-- A cursor `offset` bytes into a text: at its end if the text is shorter,
and before the character that holds the byte if that is not its first. -/
def atByte (text : List Char) (offset : Nat) : Cursor :=
  let cut := Text.cutBytes offset [] text
  ⟨cut.1, cut.2, .after cut.1⟩

/-! ## Looking -/

/-- The next character. -/
def peek? (cur : Cursor) : Option Char := cur.rest.head?

/-- The character `n` places after the next one. -/
def peekAt? (cur : Cursor) (n : Nat) : Option Char := cur.rest[n]?

/-- The character read last. -/
def previous? (cur : Cursor) : Option Char := cur.seen.head?

/-- Whether everything was read. -/
def atEnd (cur : Cursor) : Bool := cur.rest.isEmpty

/-- The text read so far. -/
def consumed (cur : Cursor) : List Char := cur.seen.reverse

/-- The whole text. -/
def source (cur : Cursor) : List Char := cur.seen.reverse ++ cur.rest

/-- Whether the text left starts with `text`. -/
def startsWith (cur : Cursor) (text : List Char) : Bool := text.isPrefixOf cur.rest

/-- The text between two cursors on one text, the first standing first. -/
def between (first last : Cursor) : List Char :=
  (Text.cutBytes (last.position.offset - first.position.offset) [] first.rest).1.reverse

/-! ## Moving -/

/-- Reads `n` characters, or as many as there are. -/
def advance : Nat → Cursor → Cursor
  | 0, cur => cur
  | _ + 1, ⟨seen, [], position⟩ => ⟨seen, [], position⟩
  | n + 1, ⟨seen, c :: rest, position⟩ => advance n ⟨c :: seen, rest, position.step c⟩

/-- Reads one character, if there is one. -/
def next (cur : Cursor) : Cursor := cur.advance 1

/-- Reads to the end of the text. -/
def toEnd (cur : Cursor) : Cursor := cur.advance cur.rest.length

/-- Reads `text`, if the text left starts with it. -/
def consume? (cur : Cursor) (text : List Char) : Option Cursor :=
  if cur.startsWith text then some (cur.advance text.length) else none

/-- Reads white space. -/
def skipSpace (cur : Cursor) : Cursor := cur.advance (cur.rest.takeWhile isSpace).length

/-- What a reader read. -/
structure Reading where
  /-- The characters before the one that ended it. -/
  text : List Char
  /-- Whether it ended before the text did. -/
  ended : Bool
  /-- The cursor after it. -/
  cursor : Cursor

/-- Runs a reader from `state`, to the end of the text if nothing ends it. -/
def read {σ : Type} (cur : Cursor) (reader : σ → Char → Option σ) (state : σ) : Reading :=
  match Text.extent reader state cur.rest with
  | some n => ⟨cur.rest.take (n - 1), true, cur.advance n⟩
  | none => ⟨cur.rest, false, cur.toEnd⟩

/-- Reads past `target`, which with `preceding` given must directly follow it
among the characters read here. -/
def readPast (cur : Cursor) (target : Char) (preceding : Option Char) : Reading :=
  cur.read (Text.readPast target preceding) none

/-! ## What moving keeps -/

@[simp] theorem advance_zero (cur : Cursor) : cur.advance 0 = cur := rfl

theorem advance_end (n : Nat) (seen : List Char) (position : Position) :
    advance n ⟨seen, [], position⟩ = ⟨seen, [], position⟩ := by
  cases n <;> rfl

@[simp] theorem advance_advance (m n : Nat) (cur : Cursor) :
    (cur.advance m).advance n = cur.advance (m + n) := by
  induction m generalizing cur with
  | zero => simp
  | succ m ih =>
    obtain ⟨seen, rest, position⟩ := cur
    cases rest with
    | nil => simp [advance_end]
    | cons c rest => rw [Nat.succ_add]; exact ih _

@[simp] theorem rest_advance (n : Nat) (cur : Cursor) :
    (cur.advance n).rest = cur.rest.drop n := by
  induction n generalizing cur with
  | zero => simp
  | succ n ih =>
    obtain ⟨seen, rest, position⟩ := cur
    cases rest with
    | nil => simp [advance_end]
    | cons c rest => exact ih ⟨c :: seen, rest, position.step c⟩

/-- Moving keeps the text. -/
@[simp] theorem source_advance (n : Nat) (cur : Cursor) :
    (cur.advance n).source = cur.source := by
  induction n generalizing cur with
  | zero => simp
  | succ n ih =>
    obtain ⟨seen, rest, position⟩ := cur
    cases rest with
    | nil => simp [advance_end]
    | cons c rest =>
      have kept := ih ⟨c :: seen, rest, position.step c⟩
      simp only [advance, kept]
      simp [source]

theorem offset_advance (n : Nat) (cur : Cursor) :
    (cur.advance n).position.offset =
      cur.position.offset + Text.byteCount (cur.rest.take n) := by
  induction n generalizing cur with
  | zero => simp
  | succ n ih =>
    obtain ⟨seen, rest, position⟩ := cur
    cases rest with
    | nil => simp [advance_end]
    | cons c rest =>
      simp only [advance, ih, Position.step, List.take_succ_cons, Text.byteCount_cons]
      split <;> simp only [] <;> omega

/-- What lies between a cursor and its advance is what was read. -/
@[simp] theorem between_advance (n : Nat) (cur : Cursor) :
    cur.between (cur.advance n) = cur.rest.take n := by
  have cut := Text.cutBytes_append (cur.rest.take n) [] (cur.rest.drop n)
  rw [List.take_append_drop] at cut
  simp [between, offset_advance, cut]

/-- The position is the one counted from the characters read. -/
def Counted (cur : Cursor) : Prop := cur.position = .after cur.seen

/-- Moving keeps the count. -/
theorem advance_counted {cur : Cursor} (h : cur.Counted) (n : Nat) : (cur.advance n).Counted := by
  induction n generalizing cur with
  | zero => exact h
  | succ n ih =>
    obtain ⟨seen, rest, position⟩ := cur
    cases rest with
    | nil => rw [advance_end]; exact h
    | cons c rest =>
      have stepped : Counted ⟨c :: seen, rest, position.step c⟩ := by
        simp only [Counted] at h ⊢
        rw [h, Position.after_cons]
      exact ih stepped

/-! ## Order of cursors -/

/-- `later` stands at or after `cur` in the same text. -/
def Reaches (cur later : Cursor) : Prop := ∃ n, later = cur.advance n

namespace Reaches

theorem refl (cur : Cursor) : cur.Reaches cur := ⟨0, rfl⟩

theorem trans {a b c : Cursor} (hab : a.Reaches b) (hbc : b.Reaches c) : a.Reaches c := by
  obtain ⟨m, rfl⟩ := hab
  obtain ⟨n, rfl⟩ := hbc
  exact ⟨m + n, by simp⟩

theorem advance (n : Nat) (cur : Cursor) : cur.Reaches (cur.advance n) := ⟨n, rfl⟩

/-- The later cursor has no more left. -/
theorem length_le {a b : Cursor} (h : a.Reaches b) : b.rest.length ≤ a.rest.length := by
  obtain ⟨n, rfl⟩ := h
  simp

end Reaches

theorem reaches_next (cur : Cursor) : cur.Reaches cur.next := .advance 1 cur

theorem reaches_skipSpace (cur : Cursor) : cur.Reaches cur.skipSpace := .advance _ cur

theorem reaches_read {σ : Type} (cur : Cursor) (reader : σ → Char → Option σ) (state : σ) :
    cur.Reaches (cur.read reader state).cursor := by
  simp only [read]
  split
  · exact .advance _ cur
  · exact .advance _ cur

theorem reaches_advance_read {σ : Type} (n : Nat) (cur : Cursor) (reader : σ → Char → Option σ)
    (state : σ) : cur.Reaches ((cur.advance n).read reader state).cursor :=
  (Reaches.advance n cur).trans (reaches_read _ _ _)

theorem next_of_rest_nil {cur : Cursor} (h : cur.rest = []) : cur.next = cur := by
  obtain ⟨seen, rest, position⟩ := cur
  subst h
  rfl

theorem length_next_lt {cur : Cursor} (h : cur.rest ≠ []) :
    cur.next.rest.length < cur.rest.length := by
  have : 0 < cur.rest.length := List.length_pos_iff.2 h
  simp only [next, rest_advance, List.length_drop]
  omega

end Cursor

end InlineMarkup
