import InlineMarkup.Proofs.Faults
import InlineMarkup.Proofs.Passes

/-!
# InlineMarkup.Proofs.Endings

How headers end: at their `>`, or where the text ends.

A slash may be met in any phase, and in most of them it is no sign that the tag closes itself.
`Header.Scan.Slashed` says for each phase what the last visible character read so far tells;
every transition keeps it (`Header.slashed_step`), and so does a whole run.  At the `>` it says
how the tag is closed, and before that, that a slash which was not taken for the closing one
has something visible between it and the `>` (`Header.exists_left_stray`).  Both are put
together in `selfClosing_iff_written`.

A header without its `>` is told by the state that the end of the text was met in.
`Header.CutOff` lists what it holds, and `cutOff_keeps` says that nothing else is lost than an
attribute cut off right behind its equals sign.
-/

namespace InlineMarkup

open Outcome (ok_bind)
open Text (Blank)
open Unicode (isSpace)

/-! ## What was read last -/

namespace Text

/-- The last character of a text that is not white space. -/
def lastVisible? (text : List Char) : Option Char := (trimEnd text).getLast?

theorem lastVisible?_blank {space : List Char} (blank : Blank space) (text : List Char) :
    lastVisible? (text ++ space) = lastVisible? text := by
  rw [lastVisible?, trimEnd_blank blank, lastVisible?]

theorem lastVisible?_visible {c : Char} (visible : isSpace c = false) (text : List Char) :
    lastVisible? (text ++ [c]) = some c := by
  simp [lastVisible?, trimEnd, visible]

theorem lastVisible?_cons_blank {c : Char} (visible : isSpace c = false) {space : List Char}
    (blank : Blank space) (text : List Char) : lastVisible? (text ++ c :: space) = some c := by
  rw [List.append_cons, lastVisible?_blank blank, lastVisible?_visible visible]

end Text

namespace Cursor

variable {a b c cur : Cursor}

theorem Reaches.between_append (first : a.Reaches b) (second : b.Reaches c) :
    a.between b ++ b.between c = a.between c := by
  obtain ⟨m, rfl⟩ := first
  obtain ⟨n, rfl⟩ := second
  rw [between_advance, between_advance, advance_advance, between_advance, rest_advance,
    List.take_add]

theorem between_self (cur : Cursor) : cur.between cur = [] := by
  simpa using between_advance 0 cur

theorem between_next {c : Char} {rest : List Char} (begins : cur.rest = c :: rest) :
    cur.between cur.next = [c] := by
  rw [next, between_advance, begins]
  rfl

theorem between_cons {c : Char} {rest : List Char} {later : Cursor} (begins : cur.rest = c :: rest)
    (ahead : cur.next.Reaches later) : cur.between later = c :: cur.next.between later := by
  rw [← cur.reaches_next.between_append ahead, between_next begins]
  rfl

end Cursor

theorem IsQuote.visible {quote : Char} (isQuote : IsQuote quote) :
    isSpace quote = false ∧ quote ≠ '/' := by
  obtain rfl | rfl | rfl := isQuote
  all_goals decide

namespace Group

variable {cur : Cursor}

/-- Braces that are not closed take in the rest of the text. -/
theorem rest_of_unclosed (unclosed : (read cur).closed = false) : (read cur).cursor.rest = [] := by
  cases found : Text.extent Text.readGroup 0 cur.next.rest with
  | none => simp [read, Cursor.read, found, Cursor.toEnd]
  | some n => simp [read, Cursor.read, found] at unclosed

/-- Braces that are closed end with the closing one. -/
theorem between_of_closed {more : List Char} (begins : cur.rest = '\x7b' :: more)
    (closed : (read cur).closed = true) :
    ∃ code, cur.between (read cur).cursor = '\x7b' :: (code ++ ['\x7d']) := by
  cases found : Text.extent Text.readGroup 0 more with
  | none => simp [read, Cursor.read, Cursor.rest_next begins, found] at closed
  | some n =>
    obtain ⟨code, after, rfl, rfl, -⟩ := Text.balanced_of_extent found
    have stop : (read cur).cursor = cur.advance (code.length + 1 + 1) := by
      simp [read, Cursor.read, Cursor.rest_next begins, found, Cursor.next_advance]
    refine ⟨code, ?_⟩
    rw [stop, Cursor.between_advance, begins]
    simp [List.take_append, List.take_of_length_le]

end Group

namespace Header

variable {mode : Mode} {start : Position} {scan next last : Scan} {header : Header}
  {origin cur after : Cursor} {c : Char} {rest : List Char}

/-! ## The passes over a header -/

theorem pass_of_step (unfinished : scan.phase ≠ .done) (begins : scan.cursor.rest = c :: rest)
    (taken : step mode scan c = .ok next) : pass mode start scan = .inl next := by
  simp [pass, unfinished, begins, taken]

/-- Every header read was finished after some passes: by its `>`, or by the end of the text in
lenient mode. -/
theorem exists_last (h : run mode start scan = .ok (header, after)) :
    ∃ last, Loop.Passes (pass mode start) scan last ∧ after = last.cursor ∧
      (last.phase = .done ∧ header = finish last last.attributes true ∨
        last.phase ≠ .done ∧ mode = .lenient ∧ after.rest = [] ∧
          header = finish last (cutOff last) false) := by
  fun_induction run mode start scan with
  | case1 scan done =>
    cases h
    exact ⟨scan, .refl, rfl, .inl ⟨done, rfl⟩⟩
  | case2 => contradiction
  | case3 scan unfinished ended lenient =>
    cases h
    exact ⟨scan, .refl, rfl, .inr ⟨unfinished, lenient, ended, rfl⟩⟩
  | case4 => contradiction
  | case5 scan unfinished c rest begins next taken ih =>
    obtain ⟨last, passes, ends⟩ := ih h
    exact ⟨last, .head (pass_of_step unfinished begins taken) passes, ends⟩

/-- A header that has its `>` was finished by it. -/
theorem exists_done (h : run mode start scan = .ok (header, after))
    (terminated : header.terminated = true) :
    ∃ last, Loop.Passes (pass mode start) scan last ∧ after = last.cursor ∧ last.phase = .done ∧
      header = finish last last.attributes true := by
  obtain ⟨last, passes, stop, ends | ⟨-, -, -, rfl⟩⟩ := exists_last h
  · exact ⟨last, passes, stop, ends⟩
  · contradiction

theorem reaches_of_passes (passes : Loop.Passes (pass mode start) scan last) :
    scan.cursor.Reaches last.cursor := by
  refine passes.reaches Scan.cursor fun made => ?_
  obtain ⟨-, c, rest, -, taken⟩ := step_of_pass made
  exact reaches_step taken

/-! ## Slashes -/

/-- If a slash was read last, then what follows shows that it does not close the tag. -/
def Unslashed (origin cur : Cursor) : Prop :=
  Text.lastVisible? (origin.between cur) = some '/' →
    ∀ c ∈ cur.peek?, isSpace c = false ∧ c ≠ '>'

theorem unslashed_next (reached : origin.Reaches cur) (begins : cur.rest = c :: rest)
    (visible : isSpace c = false) (other : c ≠ '/') : Unslashed origin cur.next := by
  intro slash
  rw [← reached.between_append cur.reaches_next, Cursor.between_next begins,
    Text.lastVisible?_visible visible] at slash
  cases slash
  contradiction

theorem Unslashed.space (unslashed : Unslashed origin cur) (reached : origin.Reaches cur)
    (begins : cur.rest = c :: rest) (space : isSpace c = true) : Unslashed origin cur.next := by
  intro slash
  have blank : Blank [c] := List.forall_mem_singleton.2 space
  rw [← reached.between_append cur.reaches_next, Cursor.between_next begins,
    Text.lastVisible?_blank blank] at slash
  obtain ⟨visible, -⟩ := unslashed slash c (by simp [Cursor.peek?, begins])
  rw [space] at visible
  contradiction

theorem Unslashed.ne_slash (unslashed : Unslashed origin cur) (begins : cur.rest = '>' :: rest) :
    Text.lastVisible? (origin.between cur) ≠ some '/' := by
  intro slash
  obtain ⟨-, other⟩ := unslashed slash '>' (by simp [Cursor.peek?, begins])
  contradiction

/-- A slash that a value takes in is followed by more of the value. -/
theorem unslashed_value (reached : origin.Reaches cur) (begins : cur.rest = c :: rest)
    (visible : isSpace c = false) (goesOn : ¬ (c = '/' ∧ slashCloses (cur.peekAt? 1) = true)) :
    Unslashed origin cur.next := by
  by_cases slash : c = '/'
  · intro _ d mem
    have following : cur.peekAt? 1 = some d := by
      rw [Cursor.peek?, Cursor.rest_next begins] at mem
      rw [Cursor.peekAt?, begins, List.getElem?_cons_succ, ← List.head?_eq_getElem?]
      exact mem
    have more : slashCloses (some d) = false := by simpa [slash, following] using goesOn
    simp only [slashCloses, Option.all_some, Bool.or_eq_false_iff, beq_eq_false_iff_ne] at more
    exact ⟨more.2, more.1⟩
  · exact unslashed_next reached begins visible slash

theorem unslashed_group (reached : origin.Reaches cur) (begins : cur.rest = '\x7b' :: rest) :
    Unslashed origin (Group.read cur).cursor := by
  have onward := cur.reaches_next.trans (Group.reaches_read cur)
  intro slash
  cases closed : (Group.read cur).closed with
  | true =>
    obtain ⟨code, braces⟩ := Group.between_of_closed begins closed
    rw [← reached.between_append onward, braces, ← List.cons_append, ← List.append_assoc,
      Text.lastVisible?_visible (by decide)] at slash
    cases slash
  | false => simp [Cursor.peek?, Group.rest_of_unclosed closed]

/-- What the text read so far tells of slashes.  In a value between quotes it tells nothing, but
the value does not end with a slash. -/
def Scan.Slashed (origin : Cursor) (scan : Scan) : Prop :=
  match scan.phase with
  | .done => ∃ body, origin.between scan.cursor = body ++ ['>'] ∧
      (scan.closed = true ↔ Text.lastVisible? body = some '/')
  | .slash => scan.closed = false ∧ Text.lastVisible? (origin.between scan.cursor) = some '/'
  | .quoted quote _ _ => scan.closed = false ∧ IsQuote quote
  | .tagName | .beforeName | .name _ | .afterName _ | .beforeValue _ | .unquoted _ _ =>
    scan.closed = false ∧ Unslashed origin scan.cursor

/-- One transition.  A `Move` does not tell what was read, so each phase is looked at. -/
theorem slashed_step (reached : origin.Reaches scan.cursor) (begins : scan.cursor.rest = c :: rest)
    (given : scan.Slashed origin) (h : step mode scan c = .ok next) : next.Slashed origin := by
  have read : origin.between scan.cursor.next = origin.between scan.cursor ++ [c] := by
    rw [← reached.between_append scan.cursor.reaches_next, Cursor.between_next begins]
  have visible (shown : isSpace c = false) (other : c ≠ '/') :=
    unslashed_next reached begins shown other
  have slashed (slash : c = '/') :
      Text.lastVisible? (origin.between scan.cursor.next) = some '/' := by
    rw [read, slash, Text.lastVisible?_visible (by decide)]
  have ended (closed : scan.closed = false) (unslashed : Unslashed origin scan.cursor)
      (gt : c = '>') : (scan.shift .done).Slashed origin := by
    subst gt
    exact ⟨_, read, by simp [Scan.shift, closed, unslashed.ne_slash begins]⟩
  cases phase : scan.phase with
  | tagName =>
    simp only [Scan.Slashed, phase] at given
    simp only [step, phase] at h
    obtain ⟨closed, unslashed⟩ := given
    repeat' split at h
    all_goals cases h
    · next gt => exact ended closed unslashed gt
    · next slash => exact ⟨closed, slashed slash⟩
    · next space => exact ⟨closed, unslashed.space reached begins space⟩
    · next gt slash space => exact ⟨closed, visible (Bool.eq_false_iff.2 space) slash⟩
  | beforeName =>
    simp only [Scan.Slashed, phase] at given
    simp only [step, phase] at h
    obtain ⟨closed, unslashed⟩ := given
    repeat' split at h
    · next gt => cases h; exact ended closed unslashed gt
    · next slash => cases h; exact ⟨closed, slashed slash⟩
    · next space => cases h; exact ⟨closed, unslashed.space reached begins space⟩
    · next opens =>
      cases ok_of_refuse h
      subst opens
      simp only [Scan.Slashed]
      exact ⟨closed, unslashed_group reached begins⟩
    · next gt slash space opens =>
      cases h
      exact ⟨closed, visible (Bool.eq_false_iff.2 space) slash⟩
  | name pending =>
    simp only [Scan.Slashed, phase] at given
    simp only [step, phase] at h
    obtain ⟨closed, unslashed⟩ := given
    repeat' split at h
    all_goals cases h
    · next equals => exact ⟨closed, visible (by subst equals; decide) (by subst equals; decide)⟩
    · exact ⟨closed, unslashed⟩
    · next space => exact ⟨closed, unslashed.space reached begins space⟩
    · next equals ends space =>
      exact ⟨closed, visible (Bool.eq_false_iff.2 space) fun slash => ends (.inr slash)⟩
  | afterName name =>
    simp only [Scan.Slashed, phase] at given
    simp only [step, phase] at h
    obtain ⟨closed, unslashed⟩ := given
    repeat' split at h
    all_goals cases h
    · next equals => exact ⟨closed, visible (by subst equals; decide) (by subst equals; decide)⟩
    · next space => exact ⟨closed, unslashed.space reached begins space⟩
    · exact ⟨closed, unslashed⟩
  | beforeValue name =>
    simp only [Scan.Slashed, phase] at given
    simp only [step, phase] at h
    obtain ⟨closed, unslashed⟩ := given
    repeat' split at h
    · next space => cases h; exact ⟨closed, unslashed.space reached begins space⟩
    · next quote => cases h; exact ⟨closed, quote⟩
    · contradiction
    · next opens _ =>
      cases h
      subst opens
      exact ⟨closed, unslashed_group reached begins⟩
    · next slash => cases ok_of_refuse h; exact ⟨closed, slashed slash.1⟩
    · cases ok_of_refuse h; exact ⟨closed, unslashed⟩
    · next space quote opens slash gt =>
      cases h
      exact ⟨closed, unslashed_value reached begins (Bool.eq_false_iff.2 space) slash⟩
  | quoted quote name value =>
    simp only [Scan.Slashed, phase] at given
    simp only [step, phase] at h
    obtain ⟨closed, isQuote⟩ := given
    split at h
    · next same =>
      cases h
      subst same
      obtain ⟨shown, other⟩ := isQuote.visible
      exact ⟨closed, visible shown other⟩
    · cases h; exact ⟨closed, isQuote⟩
  | unquoted name value =>
    simp only [Scan.Slashed, phase] at given
    simp only [step, phase] at h
    obtain ⟨closed, unslashed⟩ := given
    repeat' split at h
    all_goals cases h
    · exact ⟨closed, unslashed⟩
    · next slash => exact ⟨closed, slashed slash.1⟩
    · next ends slash =>
      have shown : isSpace c = false := Bool.eq_false_iff.2 fun space => ends (.inl space)
      exact ⟨closed, unslashed_value reached begins shown slash⟩
  | slash =>
    simp only [Scan.Slashed, phase] at given
    simp only [step, phase] at h
    obtain ⟨closed, slash⟩ := given
    repeat' split at h
    · next gt =>
      cases h
      subst gt
      exact ⟨_, read, by simp [slash]⟩
    · next space =>
      cases h
      refine ⟨closed, ?_⟩
      rw [Scan.shift, read, Text.lastVisible?_blank (List.forall_mem_singleton.2 space), slash]
    · next gt space =>
      cases ok_of_refuse h
      refine ⟨closed, fun _ d mem => ?_⟩
      obtain rfl : c = d := by simpa [Cursor.peek?, begins] using mem
      exact ⟨Bool.eq_false_iff.2 space, gt⟩
  | done =>
    simp only [step, phase] at h
    cases h
    exact given

theorem slashed_of_passes (passes : Loop.Passes (pass mode start) (.start cur) scan) :
    scan.Slashed cur := by
  induction passes with
  | refl =>
    refine ⟨rfl, fun slash => ?_⟩
    rw [show cur.between (Scan.start cur).cursor = [] from Cursor.between_advance 0 cur] at slash
    contradiction
  | tail passes made ih =>
    obtain ⟨-, c, rest, begins, taken⟩ := step_of_pass made
    exact slashed_step (reaches_of_passes passes) begins ih taken

section

variable (passes : Loop.Passes (pass mode start) scan last) (done : last.phase = .done)

include passes done

/-- A header that is not at its end reads on to its `>`. -/
theorem exists_left (unfinished : scan.phase ≠ .done) :
    ∃ left, scan.cursor.between last.cursor = left ++ ['>'] := by
  cases passes with
  | refl => contradiction
  | @tail before _ passes made =>
    obtain ⟨going, c, rest, begins, taken⟩ := step_of_pass made
    obtain ⟨rfl, read⟩ := done_step going taken done
    refine ⟨scan.cursor.between before.cursor, ?_⟩
    rw [read, ← (reaches_of_passes passes).between_append before.cursor.reaches_next,
      Cursor.between_next begins]

/-- A value between quotes reads on to its second quote. -/
theorem exists_left_quoted {quote : Char} {name value : String}
    (quoted : scan.phase = .quoted quote name value) :
    ∃ left, scan.cursor.between last.cursor = left ++ ['>'] ∧ quote ∈ left := by
  induction passes using Relation.ReflTransGen.head_induction_on generalizing value with
  | refl =>
    rw [quoted] at done
    contradiction
  | @head scan next made passes ih =>
    obtain ⟨-, c, rest, begins, taken⟩ := step_of_pass made
    have onward := reaches_of_passes passes
    simp only [step, quoted] at taken
    split at taken
    · next same =>
      cases taken
      subst same
      obtain ⟨left, ahead⟩ := exists_left passes done (by simp [Scan.shift])
      refine ⟨c :: left, ?_, by simp⟩
      rw [Cursor.between_cons begins onward]
      exact congrArg (c :: ·) ahead
    · cases taken
      obtain ⟨left, ahead, mem⟩ := ih rfl
      refine ⟨c :: left, ?_, List.mem_cons_of_mem c mem⟩
      rw [Cursor.between_cons begins onward]
      exact congrArg (c :: ·) ahead

/-- Where a slash was read last, and was not taken for one that closes the tag, something visible
is left before the `>`. -/
theorem not_blank_left (slashed : scan.Slashed origin) (stray : scan.phase ≠ .slash)
    (unfinished : scan.phase ≠ .done)
    (slash : Text.lastVisible? (origin.between scan.cursor) = some '/') {left : List Char}
    (ahead : scan.cursor.between last.cursor = left ++ ['>']) : ¬ Blank left := by
  intro blank
  cases phase : scan.phase with
  | slash | done => contradiction
  | quoted quote name value =>
    simp only [Scan.Slashed, phase] at slashed
    obtain ⟨left', ahead', mem⟩ := exists_left_quoted passes done phase
    rw [← List.append_cancel_right (ahead.symm.trans ahead')] at mem
    exact blank.not_mem slashed.2.visible.1 mem
  | tagName | beforeName | name | afterName | beforeValue | unquoted =>
    simp only [Scan.Slashed, phase] at slashed
    have whole := (reaches_of_passes passes).between_append_rest
    have goesOn := slashed.2 slash
    rw [Cursor.peek?, ← whole, ahead] at goesOn
    cases left with
    | nil => exact (goesOn '>' rfl).2 rfl
    | cons d left =>
      have visible := (goesOn d rfl).1
      rw [blank d List.mem_cons_self] at visible
      contradiction

end

/-- A slash that was read, and not taken for one that closes the tag, is not the last thing before
the `>`. -/
theorem exists_left_stray (h : read mode cur = .ok (header, after))
    (terminated : header.terminated = true)
    (comes : Loop.Passes (pass mode cur.position) (.start cur) scan) (stray : scan.phase ≠ .slash)
    (unfinished : scan.phase ≠ .done) {before behind : List Char}
    (cut : cur.rest = before ++ '/' :: (behind ++ scan.cursor.rest)) :
    ∃ left, scan.cursor.rest = left ++ '>' :: after.rest ∧ ¬ Blank (behind ++ left) := by
  rw [read, Loop.eq_of_passes (run_eq_pass mode cur.position) comes] at h
  obtain ⟨last, passes, rfl, done, -⟩ := exists_done h terminated
  obtain ⟨left, ahead⟩ := exists_left passes done unfinished
  refine ⟨left, ?_, fun blank => ?_⟩
  · rw [← (reaches_of_passes passes).between_append_rest, ahead, List.append_assoc]
    rfl
  · obtain ⟨behindBlank, leftBlank⟩ := List.forall_mem_append.1 blank
    have sofar : cur.between scan.cursor = before ++ '/' :: behind := by
      have rest := (reaches_of_passes comes).between_append_rest
      refine List.append_cancel_right (rest.trans (cut.trans ?_))
      simp
    have slash : Text.lastVisible? (cur.between scan.cursor) = some '/' := by
      rw [sofar, Text.lastVisible?_cons_blank (by decide) behindBlank]
    exact not_blank_left passes done (slashed_of_passes comes) stray unfinished slash ahead
      leftBlank

end Header

/-- **A header closes its tag exactly if it is written so**, in both modes: it names a void
element, or the last visible character before its `>` is a slash, as is a slash with nothing but
white space behind it.  Any other slash, be it in a value, in braces or between attributes, has
something visible behind it: wherever the machine has come to, unless it takes the slash for the
closing one or is done, what was read behind a slash and what is left before the `>` is not
blank. -/
theorem selfClosing_iff_written {mode : Mode} {cur after : Cursor} {header : Header}
    (h : Header.read mode cur = .ok (header, after)) (terminated : header.terminated = true) :
    ∃ body, cur.rest = body ++ '>' :: after.rest ∧
      (header.selfClosing = true ↔
        Name.isComponent header.name = false ∧ Name.isVoid header.name = true ∨
          Text.lastVisible? body = some '/') ∧
      (∀ before space, body = before ++ '/' :: space → Blank space → header.selfClosing = true) ∧
      ∀ scan before behind, Loop.Passes (Header.pass mode cur.position) (.start cur) scan →
        scan.phase ≠ .slash → scan.phase ≠ .done →
        cur.rest = before ++ '/' :: (behind ++ scan.cursor.rest) →
        ∃ left, scan.cursor.rest = left ++ '>' :: after.rest ∧ ¬ Blank (behind ++ left) := by
  obtain ⟨last, passes, rfl, done, rfl⟩ := Header.exists_done h terminated
  have slashed := Header.slashed_of_passes passes
  simp only [Header.Scan.Slashed, done] at slashed
  obtain ⟨body, read, closed⟩ := slashed
  have whole : cur.between last.cursor ++ last.cursor.rest = cur.rest :=
    (Header.reaches_of_passes passes).between_append_rest
  have written : (Header.finish last last.attributes true).selfClosing = true ↔
      Name.isComponent last.tag = false ∧ Name.isVoid last.tag = true ∨
        Text.lastVisible? body = some '/' := by
    simp only [Header.finish, Bool.or_eq_true, Bool.and_eq_true, Bool.not_eq_true', closed]
    exact or_comm
  refine ⟨body, ?_, written, fun before space same blank => ?_,
    fun scan before behind comes stray unfinished cut => ?_⟩
  · rw [← whole, read, List.append_assoc]
    rfl
  · rw [written, same]
    exact .inr (Text.lastVisible?_cons_blank (by decide) blank before)
  · exact Header.exists_left_stray h terminated comes stray unfinished cut

/-- Slashes in values, in braces and between attributes do not close a tag, and one before white
space and a `>` does. -/
theorem selfClosing_iff_written_slashes :
    (∃ header after body,
      Header.read .lenient (.ofList "a b=/x/y c='/' / \x7b/\x7d>".toList) = .ok (header, after) ∧
        header.terminated = true ∧ header.selfClosing = false ∧
        "a b=/x/y c='/' / \x7b/\x7d>".toList = body ++ '>' :: after.rest ∧
        Text.lastVisible? body ≠ some '/') ∧
    ∃ header after,
      Header.read .strict (.ofList "a b=/x/y c='/' / >".toList) = .ok (header, after) ∧
        header.terminated = true ∧ header.selfClosing = true := by
  have stray : (Header.read .lenient
      (.ofList "a b=/x/y c='/' / \x7b/\x7d>".toList)).toOption.map
        (fun read => (read.1.terminated, read.1.selfClosing)) = some (true, false) := by
    decide +kernel
  have closing : (Header.read .strict (.ofList "a b=/x/y c='/' / >".toList)).toOption.map
      (fun read => (read.1.terminated, read.2.rest)) = some (true, []) := by
    decide +kernel
  obtain ⟨⟨header, after⟩, read, same⟩ := Option.map_eq_some_iff.1 stray
  obtain ⟨terminated, goesOn⟩ := Prod.mk.inj same
  have read := Outcome.eq_ok_of_toOption read
  obtain ⟨⟨header', after'⟩, read', same'⟩ := Option.map_eq_some_iff.1 closing
  obtain ⟨terminated', ended⟩ := Prod.mk.inj same'
  have read' := Outcome.eq_ok_of_toOption read'
  obtain ⟨body, whole, closes, -⟩ := selfClosing_iff_written read terminated
  obtain ⟨body', whole', -, always, -⟩ := selfClosing_iff_written read' terminated'
  refine ⟨⟨header, after, body, read, terminated, goesOn, whole, fun slash => ?_⟩,
    header', after', read', terminated', always "a b=/x/y c='/' ".toList [' '] ?_ (by decide)⟩
  · rw [closes.2 (.inr slash)] at goesOn
    contradiction
  · have text : body' ++ ['>'] = "a b=/x/y c='/' / ".toList ++ ['>'] := by
      rw [ended] at whole'
      rw [← whole']
      decide +kernel
    rw [List.append_cancel_right text]
    decide +kernel

/-! ## Headers cut off -/

namespace Attributes

theorem get?_insert (name other : String) (value : AttrValue) (attributes : Attributes) :
    (attributes.insert name value).get? other =
      if other = name then some value else attributes.get? other := by
  have lookup (first : String) (given : AttrValue) (rest : Attributes) :
      get? ((first, given) :: rest) other =
        if other = first then some given else rest.get? other := by
    by_cases same : other = first
    · simp [get?, same]
    · simp [get?, List.lookup_cons, beq_false_of_ne same, same]
  induction attributes with
  | nil => rw [insert, lookup]
  | cons entry rest ih =>
    obtain ⟨first, old⟩ := entry
    rw [insert]
    split
    · next same => rw [lookup, lookup, same]; grind
    · next apart => rw [lookup, lookup, ih]; grind

theorem names_prefix_insert (name : String) (value : AttrValue) (attributes : Attributes) :
    attributes.names <+: (attributes.insert name value).names := by
  rw [names_insert]
  split
  · exact List.prefix_refl _
  · exact List.prefix_append _ _

end Attributes

namespace Header

variable {mode : Mode} {start : Position} {scan next last : Scan} {header : Header}
  {cur after : Cursor}

/-- A header that lacks its `>` was finished by the end of the text. -/
theorem exists_cut (h : run mode start scan = .ok (header, after))
    (cut : header.terminated = false) :
    ∃ last, Loop.Passes (pass mode start) scan last ∧ last.cursor = after ∧ last.phase ≠ .done ∧
      after.rest = [] ∧ header = finish last (cutOff last) false := by
  obtain ⟨last, passes, rfl, ⟨-, rfl⟩ | ⟨unfinished, -, ended, same⟩⟩ := exists_last h
  · contradiction
  · exact ⟨last, passes, rfl, unfinished, ended, same⟩

theorem names_prefix_of_passes (passes : Loop.Passes (pass mode start) scan last) :
    scan.attributes.names <+: last.attributes.names := by
  induction passes with
  | refl => exact List.prefix_refl _
  | tail _ made ih =>
    obtain ⟨-, c, rest, -, taken⟩ := step_of_pass made
    refine ih.trans ?_
    cases move_of_step taken with
    | shift | letter | close | skip | back | stay => exact List.prefix_refl _
    | commit | commitShift | expression => exact Attributes.names_prefix_insert _ _ _

theorem names_prefix_cutOff (scan : Scan) : scan.attributes.names <+: (cutOff scan).names := by
  unfold cutOff
  split
  all_goals first
    | exact List.prefix_refl _
    | exact Attributes.names_prefix_insert _ _ _

/-- Only the attribute whose name or value was being read is set. -/
theorem get?_cutOff_of_other {name : String}
    (other : scan.phase.pending? ≠ some name ∨ scan.phase = .beforeValue name) :
    (cutOff scan).get? name = scan.attributes.get? name := by
  cases phase : scan.phase with
  | tagName | beforeName | beforeValue | slash | done => simp only [cutOff, phase]
  | name pending | afterName pending | quoted quote pending value | unquoted pending value =>
    have apart : name ≠ pending := by
      rintro rfl
      simp [phase, Phase.pending?] at other
    simp only [cutOff, phase, Attributes.get?_insert, if_neg apart]

/-- Code in braces that are not closed takes in the rest of the text. -/
theorem run_unclosed {name : String} (phase : scan.phase = .beforeValue name)
    (opens : scan.cursor.peek? = some '\x7b') (unclosed : (Group.read scan.cursor).closed = false) :
    run .lenient start scan = .ok (finish scan
      (scan.attributes.insert name (.expression (Group.read scan.cursor).trimmed)) false,
        (Group.read scan.cursor).cursor) := by
  obtain ⟨more, begins⟩ := List.head?_eq_some_iff.1 opens
  have taken : step .lenient scan '\x7b' =
      .ok { scan.commit name (.expression (Group.read scan.cursor).trimmed) with
        cursor := (Group.read scan.cursor).cursor } := by
    have visible : isSpace '\x7b' = false := by decide
    simp [step, phase, visible]
  rw [run_cons (by simp [phase]) begins, taken, ok_bind,
    run_nil (by simp [Scan.commit]) (Group.rest_of_unclosed unclosed)]
  rfl

/-- What a header holds that the end of the text cut off in the state `last`. -/
structure CutOff (cur after : Cursor) (header : Header) (last : Scan) : Prop where
  ended : after.rest = []
  comes : Loop.Passes (pass .lenient cur.position) (.start cur) last
  stop : last.cursor = after
  unfinished : last.phase ≠ .done
  /-- Every attribute that was set by then. -/
  committed : ∀ scan, Loop.Passes (pass .lenient cur.position) (.start cur) scan →
    scan.attributes.names <+: header.attributes.names
  /-- An attribute whose name was read. -/
  named : ∀ name, last.phase = .name name ∨ last.phase = .afterName name →
    header.attributes.get? name = some .flag
  /-- An attribute whose value was begun. -/
  valued : ∀ name value,
    (∃ quote, last.phase = .quoted quote name value) ∨ last.phase = .unquoted name value →
      header.attributes.get? name = some (.string value)
  /-- An attribute whose value is code in braces that are not closed. -/
  braced : ∀ scan name, Loop.Passes (pass .lenient cur.position) (.start cur) scan →
    scan.phase = .beforeValue name → scan.cursor.peek? = some '\x7b' →
    (Group.read scan.cursor).closed = false →
      header.attributes.get? name = some (.expression (Group.read scan.cursor).trimmed)
  /-- All else is as it was; so is an attribute that ends in its equals sign. -/
  others : ∀ name, last.phase.pending? ≠ some name ∨ last.phase = .beforeValue name →
    header.attributes.get? name = last.attributes.get? name

end Header

/-- **A header that is cut off keeps what was read of it**: lenient reading gives a header for any
text, and if that lacks its `>`, then the whole text was read and every attribute is there, also
the one that was being read.  Only an attribute that ends in its equals sign is not. -/
theorem cutOff_keeps (cur : Cursor) :
    ∃ header after, Header.read .lenient cur = .ok (header, after) ∧
      (header.terminated = false → ∃ last, Header.CutOff cur after header last) := by
  obtain ⟨⟨header, after⟩, read⟩ := Header.read_succeeds cur
  refine ⟨header, after, read, fun cut => ?_⟩
  obtain ⟨last, passes, stop, unfinished, ended, same⟩ := Header.exists_cut read cut
  have again {scan : Header.Scan}
      (comes : Loop.Passes (Header.pass .lenient cur.position) (.start cur) scan) :
      Header.run .lenient cur.position scan = .ok (header, after) := by
    rw [← Loop.eq_of_passes (Header.run_eq_pass .lenient cur.position) comes]
    exact read
  refine ⟨last, ⟨ended, passes, stop, unfinished, fun scan comes => ?_, fun name phase => ?_,
    fun name value phase => ?_, fun scan name comes phase opens unclosed => ?_,
    fun name phase => ?_⟩⟩
  · obtain ⟨last, onward, -, -, -, rfl⟩ := Header.exists_cut (again comes) cut
    exact (Header.names_prefix_of_passes onward).trans (Header.names_prefix_cutOff last)
  · subst same
    obtain phase | phase := phase
    all_goals simp [Header.finish, Header.cutOff, phase, Attributes.get?_insert]
  · subst same
    obtain ⟨quote, phase⟩ | phase := phase
    all_goals simp [Header.finish, Header.cutOff, phase, Attributes.get?_insert]
  · have result := (again comes).symm.trans (Header.run_unclosed phase opens unclosed)
    cases result
    simp [Header.finish, Attributes.get?_insert]
  · subst same
    exact Header.get?_cutOff_of_other phase

/-- A header that is cut off in a value between quotes has all that was read of it. -/
theorem cutOff_keeps_quoted :
    ∃ header after last, Header.read .lenient (.ofList "p a b='c".toList) = .ok (header, after) ∧
      header.terminated = false ∧ header.attributes.names = ["a", "b"] ∧
      Header.CutOff (.ofList "p a b='c".toList) after header last := by
  obtain ⟨header, after, read, kept⟩ := cutOff_keeps (.ofList "p a b='c".toList)
  have computed : (Header.read .lenient (.ofList "p a b='c".toList)).toOption.map
      (fun read => (read.1.terminated, read.1.attributes.names)) = some (false, ["a", "b"]) := by
    decide +kernel
  rw [read] at computed
  obtain ⟨cut, names⟩ := Prod.mk.inj (Option.some.inj computed)
  obtain ⟨last, kept⟩ := kept cut
  exact ⟨header, after, last, read, cut, names, kept⟩

/-- A header that is cut off after an equals sign lacks the attribute that was being read. -/
theorem cutOff_loses_name :
    ∃ header after last, Header.read .lenient (.ofList "p a=".toList) = .ok (header, after) ∧
      header.terminated = false ∧
      Loop.Passes (Header.pass .lenient .start) (.start (.ofList "p a=".toList)) last ∧
      last.cursor = after ∧ last.phase = .beforeValue "a" ∧ header.attributes = [] := by
  have read : (Header.read .lenient (.ofList "p a=".toList)).toOption.map
      (fun read => (read.1.terminated, read.1.attributes.isEmpty, read.2)) =
        some (false, true, (Cursor.ofList "p a=".toList).advance 4) := by
    decide +kernel
  have passed : (Loop.after (Header.pass .lenient .start) 4
      (.start (.ofList "p a=".toList))).map (fun scan => (scan.phase, scan.cursor)) =
        some (.beforeValue "a", (Cursor.ofList "p a=".toList).advance 4) := by
    decide +kernel
  obtain ⟨⟨header, after⟩, read, same⟩ := Option.map_eq_some_iff.1 read
  simp only [Prod.mk.injEq, List.isEmpty_iff] at same
  obtain ⟨cut, none, rfl⟩ := same
  obtain ⟨last, passed, same⟩ := Option.map_eq_some_iff.1 passed
  obtain ⟨phase, stop⟩ := Prod.mk.inj same
  exact ⟨header, _, last, Outcome.eq_ok_of_toOption read, cut, Loop.passes_of_after passed, stop,
    phase, none⟩

end InlineMarkup
