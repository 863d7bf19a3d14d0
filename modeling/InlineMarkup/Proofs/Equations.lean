import InlineMarkup.Markup.Fragment
import InlineMarkup.Proofs.Outcome

/-!
# InlineMarkup.Proofs.Equations

The readers one step at a time.  Each reader is a loop whose definition carries
the facts it terminates by; here the same step is stated without them, so that
later proofs rewrite with an equation and never open a definition.
-/

namespace InlineMarkup

open Outcome (ok_bind error_bind)
open Unicode (isSpace)

/-! ## Code around markup -/

namespace Host

theorem seekFrom_nil (context : Context) {cur : Cursor} (ended : cur.rest = []) :
    seekFrom context cur = none := by
  rw [seekFrom]
  split
  · rfl
  · next more => rw [ended] at more; contradiction

/-- What the code that begins at the cursor comes to. -/
theorem seekFrom_cons (context : Context) {cur : Cursor} {c : Char} {following : List Char}
    (more : cur.rest = c :: following) :
    seekFrom context cur =
      if c = '\'' ∨ c = '"' ∨ c = '\x60' then
        seekFrom { context with last := some c } (cur.next.read (Text.readString c) false).cursor
      else if c = '/' ∧ following.head? = some '/' then
        seekFrom context (cur.next.readPast '\n' none).cursor
      else if c = '/' ∧ following.head? = some '*' then
        seekFrom context ((cur.advance 2).readPast '/' (some '*')).cursor
      else if c = '<' ∧ following.head?.any Name.isStart ∧ context.allowsMarkup then some cur
      else if isSpace c then seekFrom context cur.next
      else seekFrom (context.push cur.previous? c) cur.next := by
  rw [seekFrom]
  split
  · next ended => rw [more] at ended; contradiction
  · next d following' more' =>
    obtain ⟨rfl, rfl⟩ := List.cons.inj (more.symm.trans more')
    rfl

end Host

/-! ## Headers -/

namespace Header

theorem run_done {mode : Mode} {start : Position} {scan : Scan} (done : scan.phase = .done) :
    run mode start scan = .ok (finish scan scan.attributes true, scan.cursor) := by
  rw [run.eq_def, dif_pos done]

/-- A header cut off by the end of the text counts in lenient mode. -/
theorem run_nil {start : Position} {scan : Scan} (unfinished : scan.phase ≠ .done)
    (ended : scan.cursor.rest = []) :
    run .lenient start scan = .ok (finish scan (cutOff scan) false, scan.cursor) := by
  rw [run.eq_def, dif_neg unfinished]
  split
  · rfl
  · next c rest more => rw [ended] at more; contradiction

/-- One transition, whatever comes of it. -/
theorem run_cons {mode : Mode} {start : Position} {scan : Scan} {c : Char} {rest : List Char}
    (unfinished : scan.phase ≠ .done) (more : scan.cursor.rest = c :: rest) :
    run mode start scan = step mode scan c >>= run mode start := by
  rw [run.eq_def, dif_neg unfinished]
  split
  · next ended => rw [more] at ended; contradiction
  · next d rest' more' =>
    obtain ⟨rfl, rfl⟩ := List.cons.inj (more.symm.trans more')
    split
    · next fault failed => rw [failed]; rfl
    · next next taken => rw [taken]; rfl

/-- Every header read was finished by the machine: after its `>`, or at the end
of the text in lenient mode. -/
theorem run_cases {mode : Mode} {start : Position} {scan : Scan} {header : Header} {after : Cursor}
    (h : run mode start scan = .ok (header, after)) :
    ∃ last : Scan, after = last.cursor ∧
      (last.phase = .done ∧ header = finish last last.attributes true ∨
        last.phase ≠ .done ∧ mode = .lenient ∧ after.rest = [] ∧
          header = finish last (cutOff last) false) := by
  fun_induction run mode start scan with
  | case1 scan done =>
    cases h
    exact ⟨scan, rfl, .inl ⟨done, rfl⟩⟩
  | case2 => contradiction
  | case3 scan unfinished ended lenient =>
    cases h
    exact ⟨scan, rfl, .inr ⟨unfinished, lenient, ended, rfl⟩⟩
  | case4 => contradiction
  | case5 scan unfinished c rest more next taken ih => exact ih h

end Header

/-! ## Content -/

namespace Content

theorem readFrom_eq (mode : Mode) (pending : List Char) (segments : List Segment) (cur : Cursor) :
    readFrom mode pending segments cur =
      match lead cur.previous? cur.rest with
      | .stop => .ok ((flush pending segments).reverse, cur)
      | .markupComment =>
        readFrom mode pending segments ((cur.advance 4).read Text.readMarkupComment 1).cursor
      | .declaration => readFrom mode pending segments (cur.next.readPast '>' none).cursor
      | .group =>
        if (Group.read cur).closed = false ∧ mode = .strict then
          .error (.unbalancedBraces (Group.read cur).start)
        else if isCommentOnly (Group.read cur).code then
          readFrom mode [] (flush pending segments) (Group.read cur).cursor
        else
          readFrom mode [] (.expression (Group.read cur).trimmed :: flush pending segments)
            (Group.read cur).cursor
      | .blockComment =>
        readFrom mode pending segments ((cur.advance 2).readPast '/' (some '*')).cursor
      | .lineComment =>
        readFrom mode
          (if (cur.next.readPast '\n' none).ended then '\n' :: pending else pending) segments
          (cur.next.readPast '\n' none).cursor
      | .character c => readFrom mode (c :: pending) segments cur.next := by
  rw [readFrom]
  split
  all_goals next begins => simp only [begins]

/-- There is nothing to read at the end of a text. -/
theorem read_of_rest_nil (mode : Mode) {cur : Cursor} (ended : cur.rest = []) :
    read mode cur = .ok ([], cur) := by
  rw [read, readFrom_eq, ended]
  rfl

/-- Content is read up to a tag or the end of the text. -/
theorem stop_of_readFrom {mode : Mode} {pending : List Char} {segments result : List Segment}
    {cur stop : Cursor} (h : readFrom mode pending segments cur = .ok (result, stop)) :
    lead stop.previous? stop.rest = .stop := by
  fun_induction readFrom mode pending segments cur with
  | case1 pending segments cur begins => cases h; exact begins
  | case4 => contradiction
  | case2 _ _ _ _ ih => exact ih h
  | case3 _ _ _ _ ih => exact ih h
  | case5 _ _ _ _ _ _ _ _ ih => exact ih h
  | case6 _ _ _ _ _ _ _ _ ih => exact ih h
  | case7 _ _ _ _ ih => exact ih h
  | case8 _ _ _ _ _ ih => exact ih h
  | case9 _ _ _ _ _ ih => exact ih h

/-- Where content stops before the end of the text, a tag begins. -/
theorem tagBegins_of_read {mode : Mode} {cur stop : Cursor} {segments : List Segment}
    (h : read mode cur = .ok (segments, stop)) (more : stop.rest ≠ []) :
    tagBegins stop.rest = true := by
  have begins := stop_of_readFrom h
  unfold lead at begins
  split at begins
  · next ended => exact absurd ended more
  · split at begins
    · contradiction
    · split at begins
      · contradiction
      · split at begins
        · assumption
        · contradiction
  · contradiction
  · repeat' split at begins
    all_goals contradiction
  · contradiction

end Content

/-! ## Fragments -/

namespace Fragment

/-- An opening tag: its header, the code in its attributes, and its node. -/
theorem readOpening_eq (reader : Reader) (assembly : Assembly) (cur : Cursor) :
    readOpening reader assembly cur =
      (Header.read reader.mode cur.next >>= fun read =>
        nestAttributes reader read.1.attributes >>= fun attributes =>
          let opened := assembly.openTag reader.maker { read.1 with attributes := attributes }
          .ok ⟨read.1.terminated && opened.1 != .root, opened.2, read.2⟩) := by
  unfold readOpening
  cases Header.read reader.mode cur.next with
  | error fault => rfl
  | ok read => rfl

theorem readOn_false (reader : Reader) (assembly : Assembly) (cur : Cursor) :
    readOn reader ⟨false, assembly, cur⟩ = .ok (assembly, cur) := by
  rw [readOn]

/-- The content after a tag, and the next tag if there is one. -/
theorem readOn_true (reader : Reader) (assembly : Assembly) (cur : Cursor) :
    readOn reader ⟨true, assembly, cur⟩ =
      (Content.read reader.mode cur >>= fun read =>
        addSegments reader [] assembly read.1 >>= fun grown =>
          if read.2.rest = [] then .ok (grown, read.2)
          else readTag reader grown read.2 >>= readOn reader) := by
  rw [readOn]
  split
  · next fault failed => rw [failed, error_bind]
  · next segments after content =>
    rw [content, ok_bind]
    dsimp only
    split
    · next fault failed => rw [failed, error_bind]
    · next grown added =>
      rw [added, ok_bind]
      by_cases ended : after.rest = []
      · rw [dif_pos ended, if_pos ended]
      · rw [dif_neg ended, if_neg ended]
        split
        · next fault failed => rw [failed, error_bind]
        · next turn taken => rw [taken, ok_bind]

/-- At the end of the text nothing follows a tag. -/
theorem readOn_of_rest_nil (reader : Reader) (goesOn : Bool) (assembly : Assembly) {cur : Cursor}
    (ended : cur.rest = []) : readOn reader ⟨goesOn, assembly, cur⟩ = .ok (assembly, cur) := by
  cases goesOn with
  | false => exact readOn_false reader assembly cur
  | true =>
    rw [readOn_true, Content.read_of_rest_nil _ ended, ok_bind]
    dsimp only [addSegments]
    rw [ok_bind, if_pos ended]
    rfl

/-- What becomes of the tree once no tag follows: strict reading asks that
nothing is left open. -/
def conclude (mode : Mode) (read : Assembly × Cursor) : Except Error (Option Node × Cursor) :=
  match mode, read.1.currentName? with
  | .strict, some tag => .error (.unclosedElement tag read.2.position)
  | _, _ => .ok (read.1.finish, read.2)

theorem readRoot_eq (reader : Reader) (cur : Cursor) :
    readRoot reader cur =
      (readOpening reader .empty cur >>= fun turn =>
        readOn reader turn >>= conclude reader.mode) := rfl

theorem nextWith_eq (reader : Reader) (cur : Cursor) :
    nextWith reader cur =
      match Host.seek cur with
      | none => .ok none
      | some start => readRoot reader start >>= fun read =>
        match read.1 with
        | some root => .ok (some ⟨start, read.2, root⟩)
        | none => nextWith reader start.next := by
  rw [nextWith]
  split
  · next found => rw [found]
  · next start found =>
    rw [found]
    dsimp only
    split
    · next fault failed => rw [failed, error_bind]
    · next root stop read => rw [read, ok_bind]
    · next stop read => rw [read, ok_bind]

theorem splitWith_eq (reader : Reader) (cur : Cursor) :
    splitWith reader cur =
      (nextWith reader cur >>= fun found =>
        match found with
        | none => .ok (codePieces cur.rest)
        | some fragment => splitWith reader fragment.stop >>= fun following =>
          .ok (codePieces (cur.between fragment.start) ++ .markup fragment.root :: following)) := by
  rw [splitWith]
  split
  · next fault failed => rw [failed, error_bind]
  · next found => rw [found, ok_bind]
  · next fragment found => rw [found, ok_bind]

end Fragment

end InlineMarkup
