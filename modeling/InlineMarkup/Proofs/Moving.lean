import InlineMarkup.Proofs.Lines
import InlineMarkup.Proofs.Seeking
import Mathlib.Order.Bounds.Defs

/-!
# InlineMarkup.Proofs.Moving

Cursors as they are set and moved.  A cursor is set at the start of a text or at any byte of it,
and from there moved by reading: a character, a given text, white space, or all up to a
character.  `On` holds of the cursors that come about in this way, and nothing of them depends
on the way that they took:

* `isGreatest_atByte`: a cursor is set at the last edge of a character up to its byte;
* `reaches_move`: a movement goes on in the text, so what `advance` keeps is kept by all of
  them, and a cursor on a text is the one set at its own offset (`On.atByte_eq`);
* `Position.exists_lines`: its line and column are those of the text read, cut at line feeds;
* `readPast_cases`: reading past a character ends where that first stands.
-/

namespace InlineMarkup

/-! ## Edges of characters -/

namespace Text

/-- An offset between two characters of a text, or at one of its ends. -/
def IsEdge (text : List Char) (offset : Nat) : Prop :=
  ∃ before, before <+: text ∧ byteCount before = offset

theorem byteCount_cutBytes_le (n : Nat) (seen rest : List Char) :
    byteCount (cutBytes n seen rest).1 ≤ n + byteCount seen := by
  induction rest generalizing n seen with
  | nil => simp [cutBytes]
  | cons c rest ih =>
    rw [cutBytes]
    split
    · have := ih (n - c.utf8Size) (c :: seen)
      rw [byteCount_cons] at this
      omega
    · simp

/-- A cut takes in all characters that fit. -/
theorem le_byteCount_cutBytes {n : Nat} {first text : List Char} (begins : first <+: text)
    (fits : byteCount first ≤ n) (seen : List Char) :
    byteCount first + byteCount seen ≤ byteCount (cutBytes n seen text).1 := by
  induction text generalizing n seen first with
  | nil => simp [List.prefix_nil.1 begins, cutBytes]
  | cons c text ih =>
    rw [cutBytes]
    cases first with
    | nil =>
      -- The cut may go on behind `first`, but it never gives up what it has.
      split
      · have := ih List.nil_prefix (Nat.zero_le (n - c.utf8Size)) (c :: seen)
        simp only [byteCount_nil, byteCount_cons] at this ⊢
        omega
      · simp
    | cons d first =>
      obtain ⟨rfl, further⟩ := List.cons_prefix_cons.1 begins
      rw [byteCount_cons] at fits ⊢
      rw [if_pos (by omega)]
      have fewer : byteCount first ≤ n - d.utf8Size := by omega
      have := ih further fewer (d :: seen)
      rw [byteCount_cons] at this
      omega

end Text

/-- A cursor is set at the last edge up to the byte that is asked for: at that byte if it begins
a character, before the character that it is in, or at the end of the text. -/
theorem Cursor.isGreatest_atByte (text : List Char) (offset : Nat) :
    IsGreatest {edge | Text.IsEdge text edge ∧ edge ≤ offset}
      (atByte text offset).position.offset := by
  have whole := Text.reverse_append_cutBytes offset [] text
  have few := Text.byteCount_cutBytes_le offset [] text
  constructor
  · refine ⟨⟨(Text.cutBytes offset [] text).1.reverse, ⟨_, whole⟩, ?_⟩, few⟩
    rw [Text.byteCount_reverse]
    rfl
  · rintro edge ⟨⟨before, begins, rfl⟩, fits⟩
    exact Text.le_byteCount_cutBytes begins fits []

/-! ## Lines -/

theorem Literal.length_lines (text : List Char) : (lines text).length = text.count '\n' + 1 := by
  have parts (part : List Char) : (Text.splitFrom '\n' part text).length = text.count '\n' + 1 := by
    induction text generalizing part with
    | nil => simp [Text.splitFrom]
    | cons c text ih =>
      rw [Text.splitFrom]
      split
      · next feed => simp [ih, feed]
      · next other => simp [ih, other]
  exact parts []

/-- Counting line feeds, and characters back to the last of them, is cutting the text at its line
feeds. -/
theorem Position.exists_lines (seen : List Char) :
    ∃ whole last, seen.reverse.splitOn '\n' = whole ++ [last] ∧
      (after seen).line = whole.length + 1 ∧ (after seen).column = last.length + 1 := by
  have line {whole : List (List Char)} {last : List Char}
      (lines : Literal.lines seen.reverse = whole ++ [last]) :
      (after seen).line = whole.length + 1 := by
    have length := Literal.length_lines seen.reverse
    simp [lines] at length
    simp [after]
    omega
  have column {last tail : List Char} (nearest : seen = last.reverse ++ tail) (absent : '\n' ∉ last)
      (stop : tail.head?.any (· ≠ '\n') = false) : (after seen).column = last.length + 1 := by
    have run : seen.takeWhile (· ≠ '\n') = last.reverse := by
      rw [nearest]
      refine takeWhile_append_stop ?_ stop
      simpa using fun c mem => ne_of_mem_of_not_mem mem absent
    simp only [after, run, List.length_reverse]
    omega
  rw [← Literal.lines_eq_splitOn]
  by_cases feed : '\n' ∈ seen.reverse
  · obtain ⟨before, last, first, middle, cut, absent, -, lines⟩ := Literal.exists_last_line feed
    have nearest : seen = last.reverse ++ '\n' :: before.reverse := by
      simpa using congrArg List.reverse cut
    exact ⟨first :: middle, last, lines, line lines, column nearest absent (by simp)⟩
  · have lines := Literal.lines_of_not_mem feed
    have nearest : seen = seen.reverse.reverse ++ [] := by simp
    exact ⟨[], seen.reverse, lines, line lines, column nearest feed rfl⟩

namespace Cursor

/-! ## Movements -/

/-- A movement of a cursor. -/
inductive Movement where
  /-- Past a character. -/
  | next
  /-- Past a text, if it is the next one. -/
  | consume (text : List Char)
  /-- Past white space. -/
  | skipSpace
  /-- Past a character that directly follows another one, if that is given. -/
  | readPast (target : Char) (preceding : Option Char)

/-- The cursor after a movement. -/
def move (cur : Cursor) : Movement → Cursor
  | .next => cur.next
  | .consume text => (cur.consume? text).getD cur
  | .skipSpace => cur.skipSpace
  | .readPast target preceding => (cur.readPast target preceding).cursor

/-- A cursor on a text: set at its start or at any byte, and moved from there. -/
inductive On (text : List Char) : Cursor → Prop
  | ofList : On text (.ofList text)
  | atByte (offset : Nat) : On text (.atByte text offset)
  | move {cur : Cursor} (on : On text cur) (movement : Movement) : On text (cur.move movement)

variable {text : List Char} {cur : Cursor}

theorem consumed_advance (n : Nat) (cur : Cursor) :
    (cur.advance n).consumed = cur.consumed ++ cur.rest.take n := by
  simp [consumed, seen_advance]

/-- Every movement goes on in the text. -/
theorem reaches_move (cur : Cursor) (movement : Movement) : cur.Reaches (cur.move movement) := by
  cases movement with
  | next => exact cur.reaches_next
  | consume text =>
    simp only [move, consume?]
    split
    · exact .advance text.length cur
    · exact .refl cur
  | skipSpace => exact cur.reaches_skipSpace
  | readPast target preceding => exact cur.reaches_read _ _

namespace On

theorem source_eq (on : On text cur) : cur.source = text := by
  induction on with
  | ofList => rfl
  | atByte offset => exact Text.reverse_append_cutBytes offset [] text
  | move _ movement ih => rw [(reaches_move _ movement).source_eq, ih]

theorem counted (on : On text cur) : cur.Counted := by
  induction on with
  | ofList => rfl
  | atByte => rfl
  | move _ movement ih => exact (reaches_move _ movement).counted ih

/-- A cursor is the one that is set at its own offset. -/
theorem atByte_eq (on : On text cur) : Cursor.atByte text cur.position.offset = cur := by
  rw [← on.source_eq]
  exact atByte_offset on.counted

theorem advance (on : On text cur) (n : Nat) : On text (cur.advance n) := by
  induction n with
  | zero => exact on
  | succ n ih =>
    rw [← advance_advance]
    exact ih.move .next

theorem reaches {later : Cursor} (on : On text cur) (h : cur.Reaches later) : On text later := by
  obtain ⟨n, rfl⟩ := h
  exact on.advance n

theorem consumed_append_rest (on : On text cur) : cur.consumed ++ cur.rest = text := on.source_eq

theorem isEdge (on : On text cur) : Text.IsEdge text cur.position.offset :=
  ⟨cur.consumed, ⟨cur.rest, on.source_eq⟩, on.counted.offset_eq.symm⟩

theorem slice?_consumed (on : On text cur) :
    Text.slice? text 0 cur.position.offset = some cur.consumed := by
  have cut := Text.slice?_append [] cur.consumed cur.rest
  rw [on.counted.offset_eq]
  simpa [on.consumed_append_rest] using cut

end On

/-- What a cursor says of its place is what the text says of its offset. -/
structure Placed (text : List Char) (cur : Cursor) : Prop where
  atByte : Cursor.atByte text cur.position.offset = cur
  edge : Text.IsEdge text cur.position.offset
  inside : cur.position.offset ≤ Text.byteCount text
  whole : cur.consumed ++ cur.rest = text
  consumed : Text.slice? text 0 cur.position.offset = some cur.consumed
  rest : Text.slice? text cur.position.offset (Text.byteCount text) = some cur.rest
  previous : cur.previous? = cur.consumed.getLast?
  lines : ∃ whole last, cur.consumed.splitOn '\n' = whole ++ [last] ∧
    cur.position.line = whole.length + 1 ∧ cur.position.column = last.length + 1

theorem On.placed (on : On text cur) : cur.Placed text where
  atByte := on.atByte_eq
  edge := on.isEdge
  inside := on.source_eq ▸ on.counted.offset_le
  whole := on.consumed_append_rest
  consumed := on.slice?_consumed
  rest := by
    have cut := slice?_rest on.counted
    rwa [on.source_eq] at cut
  previous := by simp [previous?, Cursor.consumed]
  lines := by
    rw [on.counted]
    exact Position.exists_lines cur.seen

end Cursor

/-! ## Reading past a character -/

namespace Text

/-- A character stands in a text behind `before`, and directly behind another one, if that is
given. -/
structure StandsBehind (target : Char) (preceding : Option Char) (text before : List Char) :
    Prop where
  stands : before ++ [target] <+: text
  preceded : ∀ c, preceding = some c → before.getLast? = some c

/-- A character stands in a text behind `before` in that way, and nowhere earlier. -/
structure FirstBehind (target : Char) (preceding : Option Char) (text before : List Char) : Prop
    extends StandsBehind target preceding text before where
  least : ∀ earlier, StandsBehind target preceding text earlier → before.length ≤ earlier.length

/-- Whether reading past a character ends with `c`. -/
def pastEnds (target : Char) (preceding : Option Char) (before : List Char) (c : Char) : Bool :=
  c == target && preceding.all (before.getLast? == some ·)

theorem standsBehind_iff {target : Char} {preceding : Option Char} {text before : List Char} :
    StandsBehind target preceding text before ↔
      ∃ c after, text = before ++ c :: after ∧ pastEnds target preceding before c = true := by
  constructor
  · rintro ⟨⟨after, rfl⟩, preceded⟩
    refine ⟨target, after, by simp, ?_⟩
    cases preceding with
    | none => simp [pastEnds]
    | some p => simp [pastEnds, preceded p rfl]
  · rintro ⟨c, after, rfl, ends⟩
    simp only [pastEnds, Bool.and_eq_true, beq_iff_eq] at ends
    obtain ⟨rfl, preceded⟩ := ends
    refine ⟨⟨after, by simp⟩, ?_⟩
    rintro p rfl
    simpa using preceded

end Text

namespace Host

open Text (StandsBehind FirstBehind pastEnds)

variable {target : Char} {preceding : Option Char} {text before : List Char}

theorem tells_readPast (target : Char) (preceding : Option Char) :
    Tells (Text.readPast target preceding) none List.getLast? (pastEnds target preceding) := by
  refine ⟨rfl, fun before c => ?_⟩
  cases preceding with
  | none => simp [Text.readPast, pastEnds]
  | some p => simp [Text.readPast, pastEnds]

theorem unended_iff :
    Unended (pastEnds target preceding) text ↔
      ∀ before, ¬ StandsBehind target preceding text before := by
  simp only [Text.standsBehind_iff, Unended]
  grind

/-- Where nothing before it ends the text, it is the first that stands there. -/
theorem firstBehind_of_unended {c : Char} {after : List Char}
    (ends : pastEnds target preceding before c = true)
    (unended : Unended (pastEnds target preceding) before) :
    FirstBehind target preceding (before ++ c :: after) before where
  toStandsBehind := Text.standsBehind_iff.2 ⟨c, after, rfl, ends⟩
  least := by
    intro earlier stands
    apply Nat.le_of_not_lt
    intro less
    have inside : earlier ++ [target] <+: before :=
      List.prefix_of_prefix_length_le stands.stands (List.prefix_append _ _) (by simp; omega)
    exact unended_iff.1 unended earlier ⟨inside, stands.preceded⟩

/-- How far a reader goes that is told by what it has read, from a place on. -/
theorem Tells.extent_cases {σ : Type} {reader : σ → Char → Option σ} {first : σ}
    {state : List Char → σ} {ends : List Char → Char → Bool} (tells : Tells reader first state ends)
    (read text : List Char) :
    (∃ before c after, text = before ++ c :: after ∧ ends (read ++ before) c = true ∧
      Unended (fun inner => ends (read ++ inner)) before ∧
      Text.extent reader (state read) text = some (before.length + 1)) ∨
    Unended (fun inner => ends (read ++ inner)) text ∧
      Text.extent reader (state read) text = none := by
  -- What ends the text depends on all that was read, so `read` grows as the text gets shorter.
  induction text generalizing read with
  | nil => exact .inr ⟨unended_nil, rfl⟩
  | cons c text ih =>
    rw [Text.extent_cons, tells.step read c]
    cases ended : ends read c with
    | true => exact .inl ⟨[], c, text, rfl, by simpa using ended, unended_nil, rfl⟩
    | false =>
      have further : ∀ {text}, Unended (fun inner => ends ((read ++ [c]) ++ inner)) text →
          Unended (fun inner => ends (read ++ inner)) (c :: text) := by
        intro text unended
        exact unended_cons.2 ⟨by simpa using ended, by simpa using unended⟩
      obtain ⟨before, d, after, rfl, ends, unended, found⟩ | ⟨unended, none⟩ := ih (read ++ [c])
      · exact .inl ⟨c :: before, d, after, rfl, by simpa using ends, further unended,
          by simp [found]⟩
      · exact .inr ⟨further unended, by simp [none]⟩

/-- Such a reader ends with the first character that ends it, or reads everything. -/
theorem Tells.read_cases {σ : Type} {reader : σ → Char → Option σ} {first : σ}
    {state : List Char → σ} {ends : List Char → Char → Bool} (tells : Tells reader first state ends)
    (cur : Cursor) :
    (∃ before c after, cur.rest = before ++ c :: after ∧ ends before c = true ∧
      Unended ends before ∧
      cur.read reader first = ⟨before, true, cur.advance (before.length + 1)⟩) ∨
    Unended ends cur.rest ∧ cur.read reader first = ⟨cur.rest, false, cur.toEnd⟩ := by
  have cases := tells.extent_cases [] cur.rest
  simp only [List.nil_append, tells.start] at cases
  obtain ⟨before, c, after, whole, ended, unended, found⟩ | ⟨unended, missing⟩ := cases
  · refine .inl ⟨before, c, after, whole, ended, unended, ?_⟩
    rw [Cursor.read, found]
    simp [whole]
  · exact .inr ⟨unended, by rw [Cursor.read, missing]⟩

end Host

namespace Cursor

/-- Reading past a character ends right behind the first place where it stands.  If there is none,
everything is read. -/
theorem readPast_cases (cur : Cursor) (target : Char) (preceding : Option Char) :
    (∃ before, Text.FirstBehind target preceding cur.rest before ∧
      cur.readPast target preceding = ⟨before, true, cur.advance (before.length + 1)⟩) ∨
    (∀ before, ¬ Text.StandsBehind target preceding cur.rest before) ∧
      cur.readPast target preceding = ⟨cur.rest, false, cur.toEnd⟩ := by
  obtain ⟨before, c, after, whole, ends, unended, read⟩ | ⟨unended, read⟩ :=
    (Host.tells_readPast target preceding).read_cases cur
  · rw [whole]
    exact .inl ⟨before, Host.firstBehind_of_unended ends unended, read⟩
  · exact .inr ⟨Host.unended_iff.1 unended, read⟩

/-- **A cursor is told by its offset.**  Wherever it was set and however it was moved, it is the
cursor that is set at its offset, with the line, the column and the character before it that the
text has there.  Reading past a character stops directly behind the first place where that
stands, with nothing but what is read now taken for what precedes it, and fails exactly if there
is none, at the end of the text. -/
theorem told_by_offset (text : List Char) :
    (∀ offset, IsGreatest {edge | Text.IsEdge text edge ∧ edge ≤ offset}
      (atByte text offset).position.offset) ∧
    ∀ cur, On text cur → cur.Placed text ∧
      ∀ target preceding, (cur.readPast target preceding).cursor.Placed text ∧
        ((cur.readPast target preceding).ended = true →
          ∃ before, Text.FirstBehind target preceding cur.rest before ∧
            (cur.readPast target preceding).cursor.consumed =
              cur.consumed ++ before ++ [target]) ∧
        ((cur.readPast target preceding).ended = false ↔
          ∀ before, ¬ Text.StandsBehind target preceding cur.rest before) ∧
        ((cur.readPast target preceding).ended = false →
          (cur.readPast target preceding).cursor.atEnd = true) := by
  refine ⟨isGreatest_atByte text, fun cur on => ⟨on.placed, fun target preceding =>
    ⟨(on.move (.readPast target preceding)).placed, ?_⟩⟩⟩
  obtain ⟨before, first, read⟩ | ⟨none, read⟩ := cur.readPast_cases target preceding
  · obtain ⟨after, whole⟩ := first.stands
    have consumed : (cur.advance (before.length + 1)).consumed =
        cur.consumed ++ before ++ [target] := by
      rw [consumed_advance, ← whole]
      simp [List.take_append, List.take_of_length_le]
    rw [read]
    exact ⟨fun _ => ⟨before, first, consumed⟩, by simpa using ⟨before, first.toStandsBehind⟩,
      by simp⟩
  · rw [read]
    exact ⟨by simp, by simpa using none, fun _ => by simp [atEnd, toEnd]⟩

/-- Set inside a character of two bytes and moved into a comment on the next line, which does not
end with the star that opens it. -/
theorem told_by_offset_comment :
    ∃ cur, On "é\n/*/ü*/x".toList cur ∧ cur.position = ⟨5, 2, 3⟩ ∧
      cur.Placed "é\n/*/ü*/x".toList ∧
      (∃ before, Text.FirstBehind '/' (some '*') cur.rest before ∧
        (cur.readPast '/' (some '*')).cursor.consumed = cur.consumed ++ before ++ ['/']) ∧
      (cur.readPast '/' (some '*')).cursor.rest = ['x'] ∧
      ∀ before, ¬ Text.StandsBehind '/' (some '/') cur.rest before := by
  have on : On "é\n/*/ü*/x".toList _ :=
    (((On.atByte 1).move .next).move .skipSpace).move (.consume ['/', '*'])
  obtain ⟨-, told⟩ := told_by_offset "é\n/*/ü*/x".toList
  obtain ⟨placed, past⟩ := told _ on
  obtain ⟨-, found, -⟩ := past '/' (some '*')
  obtain ⟨-, -, missed, -⟩ := past '/' (some '/')
  exact ⟨_, on, by decide +kernel, placed, found (by decide +kernel), by decide +kernel,
    missed.1 (by decide +kernel)⟩

end Cursor

end InlineMarkup
