import InlineMarkup.Proofs.Reading
import InlineMarkup.Proofs.Splice

/-!
# InlineMarkup.Proofs.Fork

Two texts that begin alike.  Two cursors form a `Fork` if the same text is ahead of
both up to a place, where one of the texts goes on with `tail` and the other with
`tail'`.  A reading of the one text that stops before that place is matched by one
of the other, though the readers look ahead: `Shares` counts the characters that are
left before the texts part, and a reading that goes on to the end of a tag leaves as
many as any reader looks at.

What was read before a place hardly counts, either.  Readers look at one
character of it at most, and there the start of a text is no other than the end of
a tag (`Neutral`).

* `Cursor.Fork.advance`, `Cursor.Fork.read`: moving and reading keep a fork;
* `Cursor.Fork.lead_eq`: the same begins in both texts;
* `Header.step_elsewhere`: what a transition of a header does, it does anywhere;
* `Header.run_fork`: headers are read alike in both texts;
* `Host.seekFrom_fork`: markup is found in both texts.
-/

namespace InlineMarkup

open Outcome (ok_bind)
open Unicode (isSpace)

/-! ## Texts that are cut off -/

namespace Text

/-- A reader that ends inside a text does so if nothing follows the text. -/
theorem extent_of_append {σ : Type} {read : σ → Char → Option σ} {state : σ} {text rest : List Char}
    {n : Nat} (h : extent read state (text ++ rest) = some n) (inside : n ≤ text.length) :
    extent read state text = some n := by
  induction text generalizing state n with
  | nil =>
    have positive := (extent_bounds h).1
    simp only [List.length_nil] at inside
    omega
  | cons c text ih =>
    rw [List.cons_append, extent_cons] at h
    rw [extent_cons]
    cases taken : read state c with
    | none => simpa [taken] using h
    | some next =>
      simp only [taken] at h ⊢
      obtain ⟨m, inner, rfl⟩ := Option.map_eq_some_iff.1 h
      rw [ih inner (by simpa using inside), Option.map_some]

/-- A run of characters that ends inside a text does not depend on what follows. -/
theorem takeWhile_of_append {p : Char → Bool} {text rest : List Char}
    (inside : ((text ++ rest).takeWhile p).length < text.length) (other : List Char) :
    (text ++ other).takeWhile p = (text ++ rest).takeWhile p := by
  rw [List.takeWhile_append] at inside
  split at inside
  · rw [List.length_append] at inside
    omega
  · next ends => rw [List.takeWhile_append, List.takeWhile_append, if_neg ends, if_neg ends]

end Text

/-- A reader past a character reads every other one. -/
theorem Text.readPast_of_ne {c target : Char} (other : c ≠ target) (before : Option Char) :
    readPast target none before c = some (some c) :=
  if_neg fun found => other found.1

namespace Cursor

theorem previous?_advance (n : Nat) (cur : Cursor) :
    (cur.advance n).previous? = (cur.rest.take n).getLast?.or cur.previous? := by
  rw [previous?, seen_advance, List.head?_append, List.head?_reverse]
  rfl

/-- A tag that does not begin with its `>` is two characters long. -/
theorem length_before_tag {c : Char} {more : List Char} {cur stop : Cursor}
    (begins : cur.rest = c :: more) (other : c ≠ '>') (reached : cur.next.Reaches stop)
    (last : stop.previous? = some '>') : stop.rest.length + 2 ≤ cur.rest.length := by
  obtain ⟨n, rfl⟩ := reached
  have next : cur.next.rest = more := rest_next begins
  rw [previous?_advance, next, previous?_next begins] at last
  rw [rest_advance, next, begins, List.length_drop, List.length_cons]
  cases taken : more.take n with
  | nil =>
    rw [taken] at last
    exact absurd (Option.some.inj last) other
  | cons d less =>
    have size := congrArg List.length taken
    rw [List.length_take, List.length_cons] at size
    omega

/-- Reading past a character reads every other one before it. -/
theorem reaches_readPast_next {cur : Cursor} {c target : Char} {more : List Char}
    (begins : cur.rest = c :: more) (other : c ≠ target) :
    cur.next.Reaches (cur.readPast target none).cursor := by
  unfold readPast read
  rw [begins, Text.extent_cons, Text.readPast_of_ne other]
  dsimp only
  cases Text.extent (Text.readPast target none) (some c) more with
  | some n => exact ⟨n, (next_advance n cur).symm⟩
  | none =>
    refine ⟨more.length, ?_⟩
    rw [next_advance, ← List.length_cons, ← begins]
    rfl

/-! ## Room before two texts part -/

/-- The text ahead has `n` characters at least before it goes on with `tail`, where the other
text goes on with `tail'`, and it is not at its end.  If both just end there, they never part. -/
def Shares (tail tail' : List Char) (n : Nat) (cur : Cursor) : Prop :=
  tail = [] ∧ tail' = [] ∨ cur.rest ≠ [] ∧ tail.length + n ≤ cur.rest.length

namespace Shares

variable {tail tail' : List Char} {m n : Nat} {cur stop : Cursor}

theorem mono (room : Shares tail tail' n cur) (le : m ≤ n) : Shares tail tail' m cur := by
  refine room.imp_right fun ⟨more, room⟩ => ⟨more, ?_⟩
  omega

/-- A place before one with enough room has more. -/
theorem of_advance (room : Shares tail tail' n (cur.advance m)) : Shares tail tail' (n + m) cur := by
  refine room.imp_right fun ⟨more, room⟩ => ?_
  rw [rest_advance] at more room
  have inside := List.length_pos_iff.2 more
  rw [List.length_drop] at inside room
  exact ⟨List.length_pos_iff.1 (by omega), by omega⟩

theorem of_reaches (room : Shares tail tail' n stop) (reached : cur.Reaches stop) :
    Shares tail tail' n cur := by
  obtain ⟨m, rfl⟩ := reached
  exact room.of_advance.mono (by omega)

/-- Where one text ends, there is room only if the texts never part. -/
theorem eq_nil (room : Shares tail tail' n stop) (ended : stop.rest = []) :
    tail = [] ∧ tail' = [] :=
  room.resolve_right fun room => room.1 ended

/-- A reader reads a character at least. -/
theorem before_read {σ : Type} {reader : σ → Char → Option σ} {state : σ}
    (room : Shares tail tail' n (cur.read reader state).cursor) :
    Shares tail tail' (n + 1) cur := by
  unfold Cursor.read at room
  split at room
  · next m found =>
    have positive := (Text.extent_bounds found).1
    exact room.of_advance.mono (by omega)
  · exact .inl (room.eq_nil (by rw [toEnd, rest_advance, List.drop_length]))

/-- Before the end of a tag stands its `>`, so from another character there are
two to read. -/
theorem before_tag {c : Char} {more : List Char} (room : Shares tail tail' 0 stop)
    (begins : cur.rest = c :: more) (other : c ≠ '>') (reached : cur.next.Reaches stop)
    (ends : stop.AfterTag) : Shares tail tail' 2 cur := by
  obtain last | ended := ends
  · refine room.imp_right fun ⟨_, room⟩ => ⟨by rw [begins]; exact List.cons_ne_nil _ _, ?_⟩
    have two := length_before_tag begins other reached last
    omega
  · exact .inl (room.eq_nil ended)

end Shares

/-! ## Forks -/

/-- What stands before a place makes no difference: it is the start of a text, or
the end of a tag. -/
def Neutral (previous : Option Char) : Prop := previous = none ∨ previous = some '>'

/-- The same text is ahead, up to where one text goes on with `tail` and the other with
`tail'`. -/
structure Fork (tail tail' : List Char) (cur cur' : Cursor) : Prop where
  rest : ∃ ahead, cur.rest = ahead ++ tail ∧ cur'.rest = ahead ++ tail'
  previous : cur.previous? = cur'.previous? ∨ Neutral cur.previous? ∧ Neutral cur'.previous?

namespace Fork

variable {tail tail' : List Char} {cur cur' : Cursor} {n : Nat}

/-- What there is room for is ahead of both cursors. -/
theorem exists_ahead (fork : Fork tail tail' cur cur') (room : Shares tail tail' n cur) :
    tail = [] ∧ tail' = [] ∧ cur.rest = cur'.rest ∨
      ∃ ahead, cur.rest = ahead ++ tail ∧ cur'.rest = ahead ++ tail' ∧ n ≤ ahead.length := by
  obtain ⟨ahead, rest, rest'⟩ := fork.rest
  obtain ⟨rfl, rfl⟩ | ⟨-, enough⟩ := room
  · exact .inl ⟨rfl, rfl, rest.trans rest'.symm⟩
  · rw [rest, List.length_append] at enough
    exact .inr ⟨ahead, rest, rest', by omega⟩

theorem symm (fork : Fork tail tail' cur cur') : Fork tail' tail cur' cur where
  rest := by
    obtain ⟨ahead, rest, rest'⟩ := fork.rest
    exact ⟨ahead, rest', rest⟩
  previous := fork.previous.imp Eq.symm And.symm

/-- Texts that never part are the same. -/
theorem rest_eq (fork : Fork [] [] cur cur') : cur.rest = cur'.rest := by
  obtain ⟨ahead, rest, rest'⟩ := fork.rest
  exact rest.trans rest'.symm

theorem take_eq (fork : Fork tail tail' cur cur') (room : Shares tail tail' n cur) :
    cur.rest.take n = cur'.rest.take n := by
  obtain ⟨-, -, same⟩ | ⟨ahead, rest, rest', inside⟩ := fork.exists_ahead room
  · rw [same]
  · rw [rest, rest', List.take_append_of_le_length inside, List.take_append_of_le_length inside]

/-- Moving keeps a fork. -/
theorem advance (fork : Fork tail tail' cur cur') (room : Shares tail tail' n cur) :
    Fork tail tail' (cur.advance n) (cur'.advance n) where
  rest := by
    rw [rest_advance, rest_advance]
    obtain ⟨rfl, rfl, same⟩ | ⟨ahead, rest, rest', inside⟩ := fork.exists_ahead room
    · exact ⟨cur.rest.drop n, by simp, by simp [same]⟩
    · rw [rest, rest']
      exact ⟨ahead.drop n, List.drop_append_of_le_length inside,
        List.drop_append_of_le_length inside⟩
  previous := by
    rw [previous?_advance, previous?_advance, fork.take_eq room]
    cases (cur'.rest.take n).getLast? with
    | none => exact fork.previous
    | some c => exact .inl rfl

theorem next (fork : Fork tail tail' cur cur') (room : Shares tail tail' 1 cur) :
    Fork tail tail' cur.next cur'.next :=
  fork.advance room

/-- A reader reads the same in both texts. -/
theorem read {σ : Type} {reader : σ → Char → Option σ} {state : σ}
    (fork : Fork tail tail' cur cur')
    (room : Shares tail tail' 0 (cur.read reader state).cursor) :
    (cur'.read reader state).text = (cur.read reader state).text ∧
      (cur'.read reader state).ended = (cur.read reader state).ended ∧
      Fork tail tail' (cur.read reader state).cursor (cur'.read reader state).cursor := by
  cases found : Text.extent reader state cur.rest with
  | some n =>
    simp only [Cursor.read, found] at room ⊢
    have room := room.of_advance
    rw [Nat.zero_add] at room
    have reaches : Text.extent reader state cur'.rest = some n := by
      obtain ⟨-, -, same⟩ | ⟨ahead, rest, rest', inside⟩ := fork.exists_ahead room
      · rwa [← same]
      · rw [rest'] at ⊢
        rw [rest] at found
        exact Text.extent_append (Text.extent_of_append found inside) tail'
    simp only [reaches]
    exact ⟨(fork.take_eq (room.mono (by omega))).symm, trivial, fork.advance room⟩
  | none =>
    simp only [Cursor.read, found] at room ⊢
    -- Nothing ended the reading, so the texts never part.
    obtain ⟨rfl, rfl⟩ := room.eq_nil (by rw [toEnd, rest_advance, List.drop_length])
    have same := fork.rest_eq
    rw [same] at found
    simp only [found, toEnd, same]
    exact ⟨trivial, trivial, fork.advance (.inl ⟨rfl, rfl⟩)⟩

theorem readPast {target : Char} {preceding : Option Char} (fork : Fork tail tail' cur cur')
    (room : Shares tail tail' 0 (cur.readPast target preceding).cursor) :
    (cur'.readPast target preceding).ended = (cur.readPast target preceding).ended ∧
      Fork tail tail' (cur.readPast target preceding).cursor
        (cur'.readPast target preceding).cursor :=
  (fork.read room).2

theorem takeWhile_eq {p : Char → Bool} (fork : Fork tail tail' cur cur')
    (room : Shares tail tail' 1 (cur.advance (cur.rest.takeWhile p).length)) :
    cur'.rest.takeWhile p = cur.rest.takeWhile p := by
  obtain ⟨-, -, same⟩ | ⟨ahead, rest, rest', inside⟩ := fork.exists_ahead room.of_advance
  · rw [same]
  · rw [rest] at inside
    rw [rest, rest']
    exact Text.takeWhile_of_append (by omega) tail'

theorem skipSpace (fork : Fork tail tail' cur cur') (room : Shares tail tail' 1 cur.skipSpace) :
    Fork tail tail' cur.skipSpace cur'.skipSpace := by
  have same : cur'.rest.takeWhile isSpace = cur.rest.takeWhile isSpace := fork.takeWhile_eq room
  rw [Cursor.skipSpace, Cursor.skipSpace, same]
  exact fork.advance (room.of_advance.mono (by omega))

/-- As long as there is room, the same characters are ahead. -/
theorem peekAt?_eq (fork : Fork tail tail' cur cur') (room : Shares tail tail' (n + 1) cur) :
    cur.peekAt? n = cur'.peekAt? n := by
  rw [peekAt?, peekAt?]
  obtain ⟨-, -, same⟩ | ⟨ahead, rest, rest', inside⟩ := fork.exists_ahead room
  · rw [same]
  · rw [rest, rest', List.getElem?_append_left inside, List.getElem?_append_left inside]

theorem rest_cons (fork : Fork tail tail' cur cur') (room : Shares tail tail' 1 cur) {c : Char}
    {more : List Char} (begins : cur.rest = c :: more) : ∃ more', cur'.rest = c :: more' := by
  have same := fork.take_eq room
  rw [begins, List.take_succ_cons, List.take_zero] at same
  cases begins' : cur'.rest with
  | nil => rw [begins'] at same; contradiction
  | cons d more' =>
    rw [begins', List.take_succ_cons, List.take_zero] at same
    obtain ⟨rfl, -⟩ := List.cons.inj same
    exact ⟨more', rfl⟩

/-- Code in braces is the same in both texts. -/
theorem group (fork : Fork tail tail' cur cur')
    (room : Shares tail tail' 0 (Group.read cur).cursor) :
    (Group.read cur').code = (Group.read cur).code ∧
      (Group.read cur').closed = (Group.read cur).closed ∧
      Fork tail tail' (Group.read cur).cursor (Group.read cur').cursor :=
  (fork.next (room.of_reaches (Group.reaches_read cur)).of_advance).read room

end Fork

/-- Once a character is read, what was before it does not count. -/
theorem fork_next {tail tail' : List Char} {cur cur' : Cursor}
    (rest : ∃ ahead, cur.rest = ahead ++ tail ∧ cur'.rest = ahead ++ tail') (more : cur.rest ≠ [])
    (room : Shares tail tail' 1 cur) : Fork tail tail' cur.next cur'.next := by
  obtain ⟨ahead, rest, rest'⟩ := rest
  cases ahead with
  | nil =>
    rw [List.nil_append] at rest
    obtain ⟨rfl, -⟩ | ⟨-, enough⟩ := room
    · contradiction
    · rw [rest] at enough
      omega
  | cons c less =>
    refine ⟨⟨less, ?_, ?_⟩, .inl ?_⟩
    · exact rest_next rest
    · exact rest_next rest'
    · rw [previous?_next rest, previous?_next rest']

end Cursor

open Cursor (Fork Shares Neutral)

variable {tail tail' : List Char}

/-! ## Headers -/

namespace Header

/-- A character that is not refused in one place is not refused in another. -/
theorem refuse_of_ok {mode : Mode} {scan next : Scan} {c : Char} {f : Unit → Except Error Scan}
    (h : (refuse mode scan c >>= f) = .ok next) (other : Scan) : refuse mode other c = .ok () := by
  cases mode with
  | strict => contradiction
  | lenient => rfl

/-- Where a transition leaves the cursor. -/
inductive Course where
  /-- At its character. -/
  | stays
  /-- After its character. -/
  | reads
  /-- After the code in braces at its character. -/
  | skips

/-- The cursor after a transition. -/
def Course.stop : Course → Cursor → Cursor
  | .stays, cur => cur
  | .reads, cur => cur.next
  | .skips, cur => (Group.read cur).cursor

/-- The attributes after a transition, which sets one at most. -/
def settle (entry : Option (String × AttrValue)) (attributes : Attributes) : Attributes :=
  entry.elim attributes fun entry => attributes.insert entry.1 entry.2

/-- What a transition does to the cursor and the attributes, it does wherever the cursor is and
whatever the attributes are, if the code in braces that it reads is the same there.  It looks at
its character, and at one more where a slash may end the tag. -/
theorem step_elsewhere {mode : Mode} {scan next : Scan} {c : Char} {cur : Cursor}
    (attributes : Attributes) (ahead : c = '/' → scan.cursor.peekAt? 1 = cur.peekAt? 1)
    (h : step mode scan c = .ok next) :
    ∃ (course : Course) (entry : Option (String × AttrValue)),
      next.cursor = course.stop scan.cursor ∧
      next.attributes = settle entry scan.attributes ∧
      (course = .skips → next.phase ≠ .done) ∧
      ((course = .skips → (Group.read cur).code = (Group.read scan.cursor).code ∧
          (Group.read cur).closed = (Group.read scan.cursor).closed) →
        step mode { scan with cursor := cur, attributes := attributes } c =
          .ok { next with cursor := course.stop cur, attributes := settle entry attributes }) := by
  have slash : (c = '/' ∧ slashCloses (cur.peekAt? 1) = true) =
      (c = '/' ∧ slashCloses (scan.cursor.peekAt? 1) = true) :=
    propext (and_congr_right fun same => by rw [ahead same])
  revert h
  cases phase : scan.phase with
  | tagName =>
    simp only [step, phase]
    repeat' split
    all_goals
      intro h
      cases h
      exact ⟨.reads, none, rfl, rfl, by simp, fun _ => rfl⟩
  | beforeName =>
    simp only [step, phase]
    repeat' split
    case isFalse.isFalse.isFalse.isTrue =>
      intro h
      rw [refuse_of_ok h, ok_bind]
      cases ok_of_refuse h
      exact ⟨.skips, none, rfl, rfl, by simp, fun _ => rfl⟩
    all_goals
      intro h
      cases h
      exact ⟨.reads, none, rfl, rfl, by simp, fun _ => rfl⟩
  | name pending =>
    simp only [step, phase]
    repeat' split
    all_goals
      intro h
      cases h
    · exact ⟨.reads, none, rfl, rfl, by simp, fun _ => rfl⟩
    · exact ⟨.stays, some (pending, .flag), rfl, rfl, by simp, fun _ => rfl⟩
    · exact ⟨.reads, none, rfl, rfl, by simp, fun _ => rfl⟩
    · exact ⟨.reads, none, rfl, rfl, by simp, fun _ => rfl⟩
  | afterName name =>
    simp only [step, phase]
    repeat' split
    all_goals
      intro h
      cases h
    · exact ⟨.reads, none, rfl, rfl, by simp, fun _ => rfl⟩
    · exact ⟨.reads, none, rfl, rfl, by simp, fun _ => rfl⟩
    · exact ⟨.stays, some (name, .flag), rfl, rfl, by simp, fun _ => rfl⟩
  | beforeValue name =>
    simp only [step, phase, slash]
    split
    · intro h
      cases h
      exact ⟨.reads, none, rfl, rfl, by simp, fun _ => rfl⟩
    split
    · intro h
      cases h
      exact ⟨.reads, none, rfl, rfl, by simp, fun _ => rfl⟩
    split
    · intro h
      split at h
      · contradiction
      · next kept =>
        cases h
        refine ⟨.skips, some (name, .expression (Group.read scan.cursor).trimmed), rfl, rfl,
          by simp [Scan.commit], fun same => ?_⟩
        obtain ⟨code, closed⟩ := same rfl
        rw [closed, if_neg kept, Group.trimmed, code, ← Group.trimmed]
        rfl
    split
    · intro h
      rw [refuse_of_ok h, ok_bind]
      cases ok_of_refuse h
      exact ⟨.reads, some (name, .string ""), rfl, rfl, by simp, fun _ => rfl⟩
    split
    · intro h
      rw [refuse_of_ok h, ok_bind]
      cases ok_of_refuse h
      exact ⟨.stays, some (name, .string ""), rfl, rfl, by simp, fun _ => rfl⟩
    · intro h
      cases h
      exact ⟨.reads, none, rfl, rfl, by simp, fun _ => rfl⟩
  | quoted quote name value =>
    simp only [step, phase]
    split
    all_goals
      intro h
      cases h
    · exact ⟨.reads, some (name, .string value), rfl, rfl, by simp, fun _ => rfl⟩
    · exact ⟨.reads, none, rfl, rfl, by simp, fun _ => rfl⟩
  | unquoted name value =>
    simp only [step, phase, slash]
    repeat' split
    all_goals
      intro h
      cases h
    · exact ⟨.stays, some (name, .string value), rfl, rfl, by simp, fun _ => rfl⟩
    · exact ⟨.reads, some (name, .string value), rfl, rfl, by simp, fun _ => rfl⟩
    · exact ⟨.reads, none, rfl, rfl, by simp, fun _ => rfl⟩
  | slash =>
    simp only [step, phase]
    repeat' split
    case isFalse.isFalse =>
      intro h
      rw [refuse_of_ok h, ok_bind]
      cases ok_of_refuse h
      exact ⟨.stays, none, rfl, rfl, by simp, fun _ => rfl⟩
    all_goals
      intro h
      cases h
      exact ⟨.reads, none, rfl, rfl, by simp, fun _ => rfl⟩
  | done =>
    simp only [step, phase]
    intro h
    cases h
    exact ⟨.stays, none, rfl, rfl, by simp, fun _ => by rw [phase]; rfl⟩

/-- One transition on two texts. -/
theorem step_fork {mode : Mode} {scan next : Scan} {c : Char} {cur' : Cursor}
    (fork : Fork tail tail' scan.cursor cur')
    (ahead : c = '/' → scan.cursor.peekAt? 1 = cur'.peekAt? 1)
    (h : step mode scan c = .ok next) (one : Shares tail tail' 1 scan.cursor)
    (room : next.phase ≠ .done → Shares tail tail' 0 next.cursor) :
    ∃ stop, step mode { scan with cursor := cur' } c = .ok { next with cursor := stop } ∧
      Fork tail tail' next.cursor stop := by
  obtain ⟨course, entry, stops, settled, goesOn, again⟩ := step_elsewhere scan.attributes ahead h
  rw [← settled] at again
  rw [stops] at room ⊢
  refine ⟨course.stop cur', ?_⟩
  cases course with
  | stays => exact ⟨again (by simp), fork⟩
  | reads => exact ⟨again (by simp), fork.next one⟩
  | skips =>
    obtain ⟨code, closed, moved⟩ := fork.group (room (goesOn rfl))
    exact ⟨again fun _ => ⟨code, closed⟩, moved⟩

/-- A header that is not at its end has a character to read. -/
theorem reaches_run_next {mode : Mode} {start : Position} {scan : Scan} {header : Header}
    {stop : Cursor} (unfinished : scan.phase ≠ .done) (more : scan.cursor.rest ≠ [])
    (h : run mode start scan = .ok (header, stop)) : scan.cursor.next.Reaches stop := by
  fun_induction run mode start scan with
  | case1 scan done => exact absurd done unfinished
  | case2 => contradiction
  | case3 scan unfinished ended => exact absurd ended more
  | case4 => contradiction
  | case5 scan _ c rest begins next taken ih =>
    have onward := reaches_run h
    -- Only a transition to `beforeName` leaves its character.
    cases move_of_step taken with
    | shift | letter | close | commitShift => exact onward
    | expression | skip => exact (Group.reaches_read scan.cursor).trans onward
    | commit | back => exact ih (by simp [Scan.commit]) more h
    | stay finished => exact absurd finished unfinished

/-- A header that has its `>` ends after it. -/
theorem previous?_of_terminated {mode : Mode} {start : Position} {scan : Scan} {header : Header}
    {stop : Cursor} (unfinished : scan.phase ≠ .done)
    (h : run mode start scan = .ok (header, stop)) (terminated : header.terminated = true) :
    stop.previous? = some '>' := by
  fun_induction run mode start scan with
  | case1 scan done => exact absurd done unfinished
  | case2 => contradiction
  | case3 scan unfinished ended =>
    cases h
    contradiction
  | case4 => contradiction
  | case5 scan _ c rest more next taken ih =>
    by_cases done : next.phase = .done
    · obtain ⟨rfl, read⟩ := done_step unfinished taken done
      rw [run_done done] at h
      cases h
      rw [read]
      exact Cursor.previous?_next more
    · exact ih done h

/-- A header that does not end at the end of the text has its `>`. -/
theorem terminated_of_rest {mode : Mode} {start : Position} {scan : Scan} {header : Header}
    {stop : Cursor} (h : run mode start scan = .ok (header, stop)) (more : stop.rest ≠ []) :
    header.terminated = true := by
  obtain ⟨last, -, ⟨-, rfl⟩ | ⟨-, -, ended, -⟩⟩ := run_cases h
  · rfl
  · contradiction

theorem rest_ne_nil_of_terminated {mode : Mode} {start : Position} {scan : Scan} {header : Header}
    {stop : Cursor} (unfinished : scan.phase ≠ .done)
    (h : run mode start scan = .ok (header, stop)) (terminated : header.terminated = true) :
    scan.cursor.rest ≠ [] := by
  intro ended
  cases mode with
  | strict =>
    rw [run.eq_def, dif_neg unfinished] at h
    split at h
    · contradiction
    · next more => rw [ended] at more; contradiction
  | lenient =>
    rw [run_nil unfinished ended] at h
    cases h
    contradiction

/-- The header has its `>`, and the texts part only after it; or they never do. -/
def Apart (tail tail' : List Char) (header : Header) (stop : Cursor) : Prop :=
  tail = [] ∧ tail' = [] ∨ header.terminated = true ∧ tail.length ≤ stop.rest.length

theorem apart_of_shares {mode : Mode} {start : Position} {scan : Scan} {header : Header}
    {stop : Cursor} (h : run mode start scan = .ok (header, stop)) (room : Shares tail tail' 0 stop) :
    Apart tail tail' header stop :=
  room.imp_right fun ⟨more, room⟩ => ⟨terminated_of_rest h more, room⟩

/-- A header that is not at its end has a character to read before the texts part, and
two of them if that is not its `>`. -/
theorem Apart.shares {mode : Mode} {start : Position} {scan : Scan} {header : Header}
    {stop : Cursor} (apart : Apart tail tail' header stop) (unfinished : scan.phase ≠ .done)
    (h : run mode start scan = .ok (header, stop)) :
    Shares tail tail' 1 scan.cursor ∧
      ∀ c more, scan.cursor.rest = c :: more → c ≠ '>' → Shares tail tail' 2 scan.cursor := by
  obtain none | ⟨terminated, room⟩ := apart
  · exact ⟨.inl none, fun _ _ _ _ => .inl none⟩
  · have some : scan.cursor.rest ≠ [] := rest_ne_nil_of_terminated unfinished h terminated
    have onward := reaches_run_next unfinished some h
    have last := previous?_of_terminated unfinished h terminated
    refine ⟨.inr ⟨some, ?_⟩, fun c more begins other => .inr ⟨some, ?_⟩⟩
    · have one := Cursor.length_next_lt some
      have le := onward.length_le
      omega
    · have two := Cursor.length_before_tag begins other onward last
      omega

/-- The whole machine, by induction on its run on one of the texts. -/
theorem run_fork {mode : Mode} {start : Position} {scan : Scan} {header : Header} {stop : Cursor}
    {cur' : Cursor} (start' : Position) (fork : Fork tail tail' scan.cursor cur')
    (h : run mode start scan = .ok (header, stop)) (apart : Apart tail tail' header stop) :
    ∃ stop', run mode start' { scan with cursor := cur' } = .ok (header, stop') ∧
      Fork tail tail' stop stop' := by
  fun_induction run mode start scan generalizing cur' with
  | case1 scan done =>
    cases h
    exact ⟨cur', run_done done, fork⟩
  | case2 => contradiction
  | case3 scan unfinished ended lenient =>
    cases h
    subst lenient
    obtain ⟨rfl, rfl⟩ := apart.resolve_right fun inside => Bool.false_ne_true inside.1
    have unfinished' : ({ scan with cursor := cur' } : Scan).phase ≠ .done := unfinished
    exact ⟨cur', run_nil unfinished' (fork.rest_eq.symm.trans ended), fork⟩
  | case4 => contradiction
  | case5 scan unfinished c rest more next taken ih =>
    have whole : run mode start scan = .ok (header, stop) := by
      rw [run_cons unfinished more, taken]
      exact h
    obtain ⟨one, two⟩ := apart.shares unfinished whole
    have ahead (slash : c = '/') : scan.cursor.peekAt? 1 = cur'.peekAt? 1 :=
      fork.peekAt?_eq (two c rest more (by rw [slash]; decide))
    obtain ⟨less, more'⟩ := fork.rest_cons one more
    obtain ⟨moved, taken', fork'⟩ := step_fork fork ahead taken one fun goesOn =>
      (apart.shares goesOn h).1.mono (by omega)
    obtain ⟨stop', read, last⟩ := ih fork' h
    have unfinished' : ({ scan with cursor := cur' } : Scan).phase ≠ .done := unfinished
    refine ⟨stop', ?_, last⟩
    rw [run_cons unfinished' more', taken', ok_bind]
    exact read

theorem read_fork {mode : Mode} {header : Header} {cur cur' stop : Cursor}
    (fork : Fork tail tail' cur cur') (h : read mode cur = .ok (header, stop))
    (apart : Apart tail tail' header stop) :
    ∃ stop', read mode cur' = .ok (header, stop') ∧ Fork tail tail' stop stop' :=
  run_fork cur'.position fork h apart

end Header

/-! ## Content -/

namespace Content

theorem lineCommentAfter_neutral {previous : Option Char} (neutral : Neutral previous) :
    lineCommentAfter previous = true := by
  obtain rfl | rfl := neutral
  · rfl
  · rfl

/-- A comment is told by four characters. -/
theorem isPrefixOf_append {mark rest after : List Char}
    (enough : mark.isPrefixOf (rest ++ after) = true → mark.length ≤ rest.length) :
    mark.isPrefixOf (rest ++ after) = mark.isPrefixOf rest := by
  rw [Bool.eq_iff_iff, List.isPrefixOf_iff_prefix, List.isPrefixOf_iff_prefix]
  constructor
  · intro begins
    have fits := enough (List.isPrefixOf_iff_prefix.2 begins)
    exact List.prefix_of_prefix_length_le begins (List.prefix_append rest after) fits
  · intro begins
    exact begins.trans (List.prefix_append rest after)

/-- What begins at a place is told by two characters, and by four where a comment or a
declaration begins. -/
theorem lead_append {previous : Option Char} {ahead : List Char} (two : 2 ≤ ahead.length)
    (four : ['<', '!'].isPrefixOf ahead = true → 4 ≤ ahead.length) (rest : List Char) :
    lead previous (ahead ++ rest) = lead previous ahead := by
  match ahead, two with
  | c :: d :: ahead, _ =>
    by_cases tag : c = '<'
    · subst tag
      have comment : ['!', '-', '-'].isPrefixOf (d :: ahead ++ rest) =
          ['!', '-', '-'].isPrefixOf (d :: ahead) := by
        refine isPrefixOf_append fun begins => ?_
        have four := four (by simpa using And.left (by simpa using begins))
        simpa using four
      simp only [lead, List.cons_append, tagBegins, List.head?_cons] at comment ⊢
      rw [comment]
    · by_cases brace : c = '\x7b'
      · subst brace
        rfl
      · by_cases slash : c = '/'
        · subst slash
          rfl
        · rw [List.cons_append, lead_plain ⟨tag, brace, slash⟩, lead_plain ⟨tag, brace, slash⟩]

/-- Comments and declarations begin with the same mark. -/
theorem lead_of_mark {rest : List Char} (begins : ['<', '!'].isPrefixOf rest = true)
    (previous : Option Char) :
    lead previous rest = .markupComment ∨ lead previous rest = .declaration := by
  obtain ⟨more, rfl⟩ := List.isPrefixOf_iff_prefix.1 begins
  by_cases comment : ['!', '-', '-'].isPrefixOf ('!' :: more) = true
  · exact .inl (if_pos comment)
  · exact .inr ((if_neg comment).trans (if_pos rfl))

theorem mark_of_declaration {previous : Option Char} {rest : List Char}
    (begins : lead previous rest = .declaration) : ∃ more, rest = '<' :: '!' :: more := by
  unfold lead at begins
  repeat' split at begins
  all_goals try contradiction
  next following comment mark =>
    obtain ⟨more, rfl⟩ := List.head?_eq_some_iff.1 mark
    exact ⟨more, rfl⟩

end Content

/-- The same begins in both texts. -/
theorem Cursor.Fork.lead_eq {cur cur' : Cursor} (fork : Fork tail tail' cur cur')
    (two : Shares tail tail' 2 cur)
    (four : ['<', '!'].isPrefixOf cur.rest = true → Shares tail tail' 4 cur) :
    Content.lead cur'.previous? cur'.rest = Content.lead cur.previous? cur.rest := by
  have before : Content.lead cur'.previous? cur'.rest = Content.lead cur.previous? cur'.rest := by
    obtain same | ⟨neutral, neutral'⟩ := fork.previous
    · rw [same]
    · unfold Content.lead
      rw [Content.lineCommentAfter_neutral neutral, Content.lineCommentAfter_neutral neutral']
  rw [before]
  by_cases none : tail = [] ∧ tail' = []
  · obtain ⟨rfl, rfl⟩ := none
    rw [fork.rest_eq]
  · obtain ⟨ahead, rest, rest'⟩ := fork.rest
    have size {n : Nat} (room : Shares tail tail' n cur) : n ≤ ahead.length := by
      have enough := (room.resolve_left none).2
      rw [rest, List.length_append] at enough
      omega
    have enough (begins : ['<', '!'].isPrefixOf ahead = true) : 4 ≤ ahead.length := by
      refine size (four ?_)
      rw [rest, List.isPrefixOf_iff_prefix]
      exact (List.isPrefixOf_iff_prefix.1 begins).trans (List.prefix_append _ _)
    rw [rest, rest', Content.lead_append (size two) enough, Content.lead_append (size two) enough]

/-! ## Code around markup -/

namespace Host

theorem push_fork {cur cur' : Cursor} (fork : Fork tail tail' cur cur') (context : Context)
    (c : Char) : context.push cur'.previous? c = context.push cur.previous? c := by
  have neutral {previous : Option Char} (neutral : Neutral previous) :
      previous.any Name.isPart = false := by
    obtain rfl | rfl := neutral
    · rfl
    · decide +kernel
  obtain same | ⟨outside, inside⟩ := fork.previous
  · rw [same]
  · simp only [Context.push, neutral outside, neutral inside]

/-- Markup found in one text is found in the other, if both go on alike for the two
characters it begins with. -/
theorem seekFrom_fork {context : Context} {cur found : Cursor} (cur' : Cursor)
    (fork : Fork tail tail' cur cur') (h : seekFrom context cur = some found)
    (room : Shares tail tail' 2 found) :
    ∃ found', seekFrom context cur' = some found' ∧ Fork tail tail' found found' := by
  have within {context : Context} {cur : Cursor} (h : seekFrom context cur = some found) :
      Shares tail tail' 2 cur := room.of_reaches (seekFrom_sound h).1
  have head {cur cur' : Cursor} {c : Char} {following following' : List Char}
      (fork : Fork tail tail' cur cur') (two : Shares tail tail' 2 cur)
      (more : cur.rest = c :: following) (more' : cur'.rest = c :: following') :
      following'.head? = following.head? := by
    have same := fork.peekAt?_eq (n := 1) two
    rw [Cursor.peekAt?, Cursor.peekAt?, more, more'] at same
    simpa [List.head?_eq_getElem?] using same.symm
  have three {cur later : Cursor} (room : Shares tail tail' 2 later)
      (reached : cur.next.Reaches later) : Shares tail tail' 3 cur :=
    (room.of_reaches reached).of_advance
  fun_induction seekFrom context cur generalizing cur' with
  | case1 => contradiction
  | case2 context cur c following more quote ih =>
    have stop := within h
    have room := three stop (Cursor.reaches_read _ _ _)
    obtain ⟨following', more'⟩ := fork.rest_cons (room.mono (by omega)) more
    have read := (fork.next (room.mono (by omega))).read (stop.mono (by omega))
    rw [seekFrom_cons context more', if_pos quote]
    exact ih _ read.2.2 h
  | case3 context cur c following more quote comment ih =>
    have stop := within h
    have room := three stop (Cursor.reaches_read _ _ _)
    obtain ⟨following', more'⟩ := fork.rest_cons (room.mono (by omega)) more
    have read := (fork.next (room.mono (by omega))).readPast (stop.mono (by omega))
    rw [seekFrom_cons context more', if_neg quote, head fork (room.mono (by omega)) more more',
      if_pos comment]
    exact ih _ read.2 h
  | case4 context cur c following more quote line comment ih =>
    have stop := within h
    have room : Shares tail tail' 4 cur := (stop.of_reaches (Cursor.reaches_read _ _ _)).of_advance
    obtain ⟨following', more'⟩ := fork.rest_cons (room.mono (by omega)) more
    have read := (fork.advance (room.mono (by omega))).readPast (stop.mono (by omega))
    rw [seekFrom_cons context more', if_neg quote, head fork (room.mono (by omega)) more more',
      if_neg line, if_pos comment]
    exact ih _ read.2 h
  | case5 context cur c following more quote line comment start =>
    cases h
    obtain ⟨following', more'⟩ := fork.rest_cons (room.mono (by omega)) more
    refine ⟨cur', ?_, fork⟩
    rw [seekFrom_cons context more', if_neg quote, head fork room more more', if_neg line,
      if_neg comment, if_pos start]
  | case6 context cur c following more quote line comment start space ih =>
    have room := three (within h) (.refl _)
    obtain ⟨following', more'⟩ := fork.rest_cons (room.mono (by omega)) more
    rw [seekFrom_cons context more', if_neg quote, head fork (room.mono (by omega)) more more',
      if_neg line, if_neg comment, if_neg start, if_pos space]
    exact ih _ (fork.next (room.mono (by omega))) h
  | case7 context cur c following more quote line comment start space ih =>
    have room := three (within h) (.refl _)
    obtain ⟨following', more'⟩ := fork.rest_cons (room.mono (by omega)) more
    rw [seekFrom_cons context more', if_neg quote, head fork (room.mono (by omega)) more more',
      if_neg line, if_neg comment, if_neg start, if_neg space, push_fork fork]
    exact ih _ (fork.next (room.mono (by omega))) h

theorem seek_fork {cur cur' found : Cursor} (fork : Fork tail tail' cur cur')
    (h : seek cur = some found) (room : Shares tail tail' 2 found) :
    ∃ found', seek cur' = some found' ∧ Fork tail tail' found found' :=
  seekFrom_fork cur' fork h room

end Host

end InlineMarkup
