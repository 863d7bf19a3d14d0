import InlineMarkup.Proofs.Moving
import InlineMarkup.Proofs.Segments

/-!
# InlineMarkup.Proofs.Bracing

Code in braces, told by the braces alone.  Code `Fills` braces if its own pair up and a closing
one follows; no two codes fill the same (`Fills.unique`), so there is only one that a group can
be read to.

Groups are read by a reader that counts the groups inside of it.  `Counting` is the loop that
counts all braces instead, in a number with no floor, and cuts the code out of the text between
two byte offsets, which may fail:

* `Counting.counts_pass`: what is counted stays above zero in every pass, and so in all that a
  loop comes through (`Counting.counts_of_passes`);
* `Counting.run_eq`: the loop goes with the reader, which counts one less;
* `slice?_code`: the code is what lies between the offsets, so the loop gives the group.
-/

namespace InlineMarkup

/-! ## Readers -/

/-- A reader that goes on ends where it does from the next character on. -/
theorem Cursor.read_of_some {σ : Type} {cur : Cursor} {reader : σ → Char → Option σ} {state next : σ}
    {c : Char} {rest : List Char} (begins : cur.rest = c :: rest)
    (goesOn : reader state c = some next) :
    (cur.read reader state).ended = (cur.next.read reader next).ended ∧
      (cur.read reader state).cursor = (cur.next.read reader next).cursor := by
  unfold read
  rw [begins, rest_next begins, Text.extent_cons, goesOn]
  cases found : Text.extent reader next rest with
  | some n => simp [found, next_advance]
  | none => simp [found, toEnd, begins, rest_next begins, next_advance]

/-- A reader that stops has read one character more. -/
theorem Cursor.read_of_none {σ : Type} {cur : Cursor} {reader : σ → Char → Option σ} {state : σ}
    {c : Char} {rest : List Char} (begins : cur.rest = c :: rest) (stops : reader state c = none) :
    (cur.read reader state).ended = true ∧ (cur.read reader state).cursor = cur.next := by
  unfold read
  rw [begins, Text.extent_cons, stops]
  exact ⟨rfl, rfl⟩

namespace Group

open Text (Balanced IsEdge readGroup)

/-- Code that fills braces: its own pair up, and a closing one follows it in the text. -/
def Fills (code text : List Char) : Prop := Balanced code ∧ code ++ ['\x7d'] <+: text

theorem fills_iff {code text : List Char} :
    Fills code text ↔ Balanced code ∧ ∃ after, text = code ++ '\x7d' :: after := by
  simp [Fills, List.IsPrefix, eq_comm]

/-- The first brace that closes balanced code is the only one. -/
theorem Fills.unique {code other text : List Char} (fills : Fills code text)
    (fills' : Fills other text) : other = code := by
  obtain ⟨balanced, after, rfl⟩ := fills_iff.1 fills
  obtain ⟨balanced', after', same⟩ := fills_iff.1 fills'
  exact (balanced'.append_inj balanced same.symm).1

/-- The offset behind the code of a group that ends at a cursor: before the closing brace, if there
is one. -/
def codeEnd (closed : Bool) (stop : Cursor) : Nat :=
  if closed then stop.position.offset - 1 else stop.position.offset

/-! ## The loop with its counter -/

/-- A place in a group, and how many braces are open there. -/
structure Counting where
  depth : Int
  cursor : Cursor

namespace Counting

/-- The group that ends at a cursor, with the code cut out of the text from an offset on; nothing,
if that is not possible. -/
def cutOut (start : Position) (first : Nat) (closed : Bool) (stop : Cursor) : Option Group :=
  (Text.slice? stop.source first (codeEnd closed stop)).map (⟨·, closed, start, stop⟩)

/-- One pass of the loop: a character is read, and counted if it is a brace.  The group ends where
the count comes to zero, or with the text. -/
def pass (start : Position) (first : Nat) (state : Counting) : Counting ⊕ Option Group :=
  match state.cursor.peek? with
  | none => .inr (cutOut start first false state.cursor)
  | some c =>
    if c = '\x7b' then .inl ⟨state.depth + 1, state.cursor.next⟩
    else if c = '\x7d' then
      if state.depth - 1 = 0 then .inr (cutOut start first true state.cursor.next)
      else .inl ⟨state.depth - 1, state.cursor.next⟩
    else .inl ⟨state.depth, state.cursor.next⟩

variable {start : Position} {first : Nat} {origin cur : Cursor} {state next : Counting} {c : Char}
  {rest : List Char}

/-- What is counted is above zero, and more than one by the braces opened and not closed since
`origin`. -/
structure Counts (origin : Cursor) (state : Counting) : Prop where
  reached : origin.Reaches state.cursor
  positive : 0 < state.depth
  braces : state.depth = 1 + (origin.between state.cursor).count '\x7b' -
    (origin.between state.cursor).count '\x7d'

theorem counts_start (cur : Cursor) : Counts cur ⟨1, cur⟩ where
  reached := .refl cur
  positive := by simp
  braces := by simp [Cursor.between_self]

theorem counts_pass (counts : state.Counts origin) (h : pass start first state = .inl next) :
    next.Counts origin := by
  obtain ⟨depth, cur⟩ := state
  obtain ⟨reached, positive, braces⟩ := counts
  dsimp only at reached positive braces
  cases begins : cur.rest with
  | nil => simp [pass, Cursor.peek?, begins] at h
  | cons c rest =>
    have onward := reached.trans cur.reaches_next
    have between : origin.between cur.next = origin.between cur ++ [c] := by
      rw [← reached.between_append cur.reaches_next, Cursor.between_next begins]
    simp only [pass, Cursor.peek?, begins, List.head?_cons] at h
    split at h
    · next opens =>
      obtain rfl := Sum.inl.inj h
      exact ⟨onward, by dsimp only; omega, by simp [between, opens]; omega⟩
    · next other =>
      split at h
      · next closes =>
        split at h
        · contradiction
        · next more =>
          -- The loop goes on only if the count does not come to zero here.
          obtain rfl := Sum.inl.inj h
          exact ⟨onward, by dsimp only; omega, by simp [between, closes]; omega⟩
      · next plain =>
        obtain rfl := Sum.inl.inj h
        exact ⟨onward, positive, by simp [between, other, plain]; omega⟩

/-- The counter stays above zero as long as the loop runs. -/
theorem counts_of_passes (passes : Loop.Passes (pass start first) ⟨1, cur⟩ state) :
    state.Counts cur := by
  induction passes with
  | refl => exact counts_start cur
  | tail _ made ih => exact counts_pass ih made

/-- A pass does what the reader of groups does, which counts one less. -/
theorem pass_eq (begins : cur.rest = c :: rest) (inner : Nat) :
    pass start first ⟨inner + 1, cur⟩ =
      match readGroup inner c with
      | some next => .inl ⟨next + 1, cur.next⟩
      | none => .inr (cutOut start first true cur.next) := by
  simp only [pass, Cursor.peek?, begins, List.head?_cons, readGroup]
  split
  · simp
  · split
    · -- The reader stops where no group is open inside, which the loop counts as one.
      cases inner with
      | zero => simp
      | succ inner => simp; omega
    · simp

/-- The loop goes with the reader to its end. -/
theorem run_eq {passes : Nat} (enough : cur.rest.length < passes) (inner : Nat) :
    Loop.run (pass start first) passes ⟨inner + 1, cur⟩ =
      some (cutOut start first (cur.read readGroup inner).ended
        (cur.read readGroup inner).cursor) := by
  induction passes generalizing cur inner with
  | zero => omega
  | succ passes ih =>
    cases begins : cur.rest with
    | nil => simp [Loop.run, pass, Cursor.peek?, Cursor.read, Cursor.toEnd, begins]
    | cons c rest =>
      rw [Loop.run, pass_eq begins]
      cases taken : readGroup inner c with
      | none =>
        obtain ⟨ended, stop⟩ := Cursor.read_of_none begins taken
        simp [ended, stop]
      | some next =>
        obtain ⟨ended, stop⟩ := Cursor.read_of_some begins taken
        have fewer : cur.next.rest.length < passes := by
          rw [Cursor.rest_next begins]
          simp [begins] at enough
          omega
        simp [ended, stop, ih fewer]

end Counting

/-! ## The code of a group -/

variable {text more : List Char} {cur : Cursor}

theorem read_of_fills {code : List Char} (opens : cur.rest = '\x7b' :: more)
    (fills : Fills code more) :
    read cur = ⟨code, true, cur.position, cur.advance (code.length + 2)⟩ := by
  obtain ⟨other, after, whole, balanced, taken⟩ | ⟨unfilled, -⟩ := read_cases opens
  · obtain rfl := fills.unique (fills_iff.2 ⟨balanced, after, whole⟩)
    exact taken
  · obtain ⟨balanced, after, whole⟩ := fills_iff.1 fills
    exact absurd whole (unfilled code after balanced)

theorem read_of_unfilled (opens : cur.rest = '\x7b' :: more) (unfilled : ∀ code, ¬ Fills code more) :
    read cur = ⟨more, false, cur.position, cur.toEnd⟩ := by
  obtain ⟨code, after, whole, balanced, -⟩ | ⟨-, taken⟩ := read_cases opens
  · exact absurd (fills_iff.2 ⟨balanced, after, whole⟩) (unfilled code)
  · exact taken

/-- The code of a group reaches from behind the opening brace to its end. -/
theorem exists_behind_code (opens : cur.rest = '\x7b' :: more) :
    ∃ behind, cur.next.Reaches behind ∧
      behind.position.offset = codeEnd (read cur).closed (read cur).cursor ∧
      cur.next.between behind = (read cur).code := by
  refine ⟨cur.next.advance (read cur).code.length, .advance _ _, ?_⟩
  rw [Cursor.between_advance, Cursor.rest_next opens, Cursor.next_advance, Cursor.offset_advance]
  obtain ⟨code, after, rfl, -, taken⟩ | ⟨-, taken⟩ := read_cases opens
  · have brace : ('\x7d' : Char).utf8Size = 1 := rfl
    simp [taken, codeEnd, Cursor.offset_advance, opens, List.take_append, List.take_of_length_le,
      brace]
    omega
  · simp [taken, codeEnd, Cursor.toEnd, Cursor.offset_advance, opens]

/-- The code is cut out of the text at edges of characters. -/
theorem slice?_code (on : cur.On text) (opens : cur.rest = '\x7b' :: more) :
    IsEdge text cur.next.position.offset ∧
      IsEdge text (codeEnd (read cur).closed (read cur).cursor) ∧
      Text.slice? text cur.next.position.offset (codeEnd (read cur).closed (read cur).cursor) =
        some (read cur).code := by
  obtain ⟨behind, reached, offset, between⟩ := exists_behind_code opens
  have inside : cur.next.On text := on.move .next
  have cut := Cursor.slice?_between inside.counted reached
  rw [inside.source_eq, offset, between] at cut
  exact ⟨inside.isEdge, offset ▸ (inside.reaches reached).isEdge, cut⟩

/-- The loop with its counter reads the group. -/
theorem run_counting (on : cur.On text) (opens : cur.rest = '\x7b' :: more) {passes : Nat}
    (enough : more.length < passes) :
    Loop.run (Counting.pass cur.position cur.next.position.offset) passes ⟨1, cur.next⟩ =
      some (some (read cur)) := by
  have loop : Loop.run (Counting.pass cur.position cur.next.position.offset) passes ⟨1, cur.next⟩ =
      some (Counting.cutOut cur.position cur.next.position.offset (read cur).closed
        (read cur).cursor) :=
    Counting.run_eq (Cursor.rest_next opens ▸ enough) 0
  obtain ⟨-, -, cut⟩ := slice?_code on opens
  rw [loop, Counting.cutOut, (on.reaches (reaches_cursor cur)).source_eq, cut]
  rfl

/-- **Exactly the balanced group is taken.**  Behind an opening brace, only one code can fill the
braces: this is the code that is read, through the brace behind it.  If none does, everything is
taken, to the end of the text.  The code is cut out at edges of characters, and the counter of the
loop that reads it stays above zero until the last brace. -/
theorem takes_balanced (on : cur.On text) (opens : cur.rest = '\x7b' :: more) :
    (∀ code, Fills code more →
      (∀ other, Fills other more → other = code) ∧
      (read cur).closed = true ∧ (read cur).code = code ∧
      (read cur).cursor.consumed = cur.consumed ++ '\x7b' :: (code ++ ['\x7d'])) ∧
    ((∀ code, ¬ Fills code more) →
      (read cur).closed = false ∧ (read cur).code = more ∧ (read cur).cursor.atEnd = true) ∧
    (read cur).start = cur.position ∧ (read cur).cursor.Placed text ∧
    (IsEdge text cur.next.position.offset ∧
      IsEdge text (codeEnd (read cur).closed (read cur).cursor) ∧
      Text.slice? text cur.next.position.offset (codeEnd (read cur).closed (read cur).cursor) =
        some (read cur).code) ∧
    (∀ passes, more.length < passes →
      Loop.run (Counting.pass cur.position cur.next.position.offset) passes ⟨1, cur.next⟩ =
        some (some (read cur))) ∧
    ∀ state,
      Loop.Passes (Counting.pass cur.position cur.next.position.offset) ⟨1, cur.next⟩ state →
      state.Counts cur.next := by
  refine ⟨fun code fills => ⟨fun other => fills.unique, ?_⟩, fun unfilled => ?_, rfl,
    (on.reaches (reaches_cursor cur)).placed, slice?_code on opens,
    fun passes => run_counting on opens, fun state => Counting.counts_of_passes⟩
  · have taken := read_of_fills opens fills
    obtain ⟨-, after, rfl⟩ := fills_iff.1 fills
    have consumed : (cur.advance (code.length + 2)).consumed =
        cur.consumed ++ '\x7b' :: (code ++ ['\x7d']) := by
      simp [Cursor.consumed_advance, opens, List.take_append, List.take_of_length_le]
    rw [taken]
    exact ⟨rfl, rfl, consumed⟩
  · rw [read_of_unfilled opens unfilled]
    exact ⟨rfl, rfl, by simp [Cursor.atEnd, Cursor.toEnd]⟩

/-- Braces in braces, behind a character of two bytes and with one in the code; and braces that
only the inner ones close. -/
theorem takes_balanced_nested :
    (∃ cur, cur.On "é\x7ba\x7bü\x7d\x7d\x7d".toList ∧
      cur.rest = '\x7b' :: "a\x7bü\x7d\x7d\x7d".toList ∧
      Fills "a\x7bü\x7d".toList "a\x7bü\x7d\x7d\x7d".toList ∧
      (read cur).closed = true ∧ (read cur).code = "a\x7bü\x7d".toList ∧
      Text.slice? "é\x7ba\x7bü\x7d\x7d\x7d".toList 3 8 = some "a\x7bü\x7d".toList) ∧
    ∃ cur, cur.On "\x7b\x7bü\x7d".toList ∧ cur.rest = '\x7b' :: "\x7bü\x7d".toList ∧
      (∀ code, ¬ Fills code "\x7bü\x7d".toList) ∧
      (read cur).closed = false ∧ (read cur).code = "\x7bü\x7d".toList := by
  constructor
  · have on : Cursor.On "é\x7ba\x7bü\x7d\x7d\x7d".toList _ := .atByte 2
    have fills : Fills "a\x7bü\x7d".toList "a\x7bü\x7d\x7d\x7d".toList := ⟨by decide, by decide⟩
    obtain ⟨filled, -, -, -, ⟨-, -, cut⟩, -⟩ := takes_balanced on rfl
    obtain ⟨-, closed, code, -⟩ := filled _ fills
    exact ⟨_, on, rfl, fills, closed, code, code ▸ cut⟩
  · have on : Cursor.On "\x7b\x7bü\x7d".toList _ := .ofList
    obtain ⟨filled, unfilled, -⟩ := takes_balanced on rfl
    have none : ∀ code, ¬ Fills code "\x7bü\x7d".toList := by
      intro code fills
      obtain ⟨-, closed, -⟩ := filled code fills
      contradiction
    obtain ⟨unclosed, code, -⟩ := unfilled none
    exact ⟨_, on, rfl, none, unclosed, code⟩

end Group

end InlineMarkup
