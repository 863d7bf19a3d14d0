import InlineMarkup.Proofs.Fork
import InlineMarkup.Proofs.Passes

/-!
# InlineMarkup.Proofs.Following

Loops on two texts that begin alike.  A pass over one text is matched by one over the
other, as long as it stops before the texts part (`Cursor.Fork`).  So the loops come
through the same states, and what they read before that place is the same:

* `Header.passes_fork`, `Content.passes_fork`: from a header or content half read to a later
  state of it;
* `Content.read_fork`, `Fragment.readTag_fork`: content up to a tag, and a tag;
* `Fragment.passes_fork`, `Fragment.readRoot_fork`: a fragment, half and whole;
* `Fragment.splitPasses_fork`: the pieces that code is cut into.
-/

namespace InlineMarkup

open Cursor (Fork Shares)
open Outcome (bind_eq_ok ok_bind)

variable {tail tail' : List Char}

/-! ## Headers -/

namespace Header

variable {mode : Mode} {start : Position} {scan next : Scan}

theorem reaches_of_pass (made : pass mode start scan = .inl next) :
    scan.cursor.Reaches next.cursor := by
  obtain ⟨-, c, rest, -, taken⟩ := step_of_pass made
  exact reaches_step taken

theorem pass_fork {cur' : Cursor} (made : pass mode start scan = .inl next)
    (room : Shares tail tail' 2 next.cursor) (fork : Fork tail tail' scan.cursor cur')
    (start' : Position) :
    ∃ stop, pass mode start' { scan with cursor := cur' } = .inl { next with cursor := stop } ∧
      Fork tail tail' next.cursor stop := by
  have two := room.of_reaches (reaches_of_pass made)
  obtain ⟨unfinished, c, rest, more, taken⟩ := step_of_pass made
  obtain ⟨stop, taken', moved⟩ := step_fork fork (fun _ => fork.peekAt?_eq two) taken
    (two.mono (by omega)) fun _ => room.mono (by omega)
  obtain ⟨rest', more'⟩ := fork.rest_cons (two.mono (by omega)) more
  refine ⟨stop, ?_, moved⟩
  unfold pass
  dsimp only
  rw [if_neg unfinished, more']
  dsimp only
  rw [taken']

theorem passes_fork {last : Scan} {cur' : Cursor} (passes : Loop.Passes (pass mode start) scan last)
    (room : Shares tail tail' 2 last.cursor) (fork : Fork tail tail' scan.cursor cur')
    (start' : Position) :
    ∃ stop, Loop.Passes (pass mode start') { scan with cursor := cur' } { last with cursor := stop } ∧
      Fork tail tail' last.cursor stop := by
  obtain ⟨_, passes', stop, rfl, moved⟩ := passes.follow (pass mode start')
    (fun scan => Shares tail tail' 2 scan.cursor)
    (fun scan scan' => ∃ stop, scan' = { scan with cursor := stop } ∧ Fork tail tail' scan.cursor stop)
    (fun made room => room.of_reaches (reaches_of_pass made))
    (by
      rintro scan next _ made room ⟨cur', rfl, fork⟩
      obtain ⟨stop, made', moved⟩ := pass_fork made room fork start'
      exact ⟨_, made', stop, rfl, moved⟩)
    room _ ⟨cur', rfl, fork⟩
  exact ⟨stop, passes', moved⟩

end Header

/-! ## Content -/

namespace Content

variable {mode : Mode} {half next : Half}

theorem reaches_of_pass (made : pass mode half = .inl next) : half.cursor.Reaches next.cursor :=
  (Cursor.reaches_next _).trans (reads_of_pass made).2

/-- A pass over content, with room for the beginning of a tag after it. -/
theorem pass_fork {cur' : Cursor} (made : pass mode half = .inl next)
    (room : Shares tail tail' 2 next.cursor) (fork : Fork tail tail' half.cursor cur') :
    ∃ stop, pass mode { half with cursor := cur' } = .inl { next with cursor := stop } ∧
      Fork tail tail' next.cursor stop := by
  obtain ⟨pending, segments, cur⟩ := half
  dsimp only at fork ⊢
  have zero := room.mono (show 0 ≤ 2 by omega)
  have three : Shares tail tail' 3 cur := (room.of_reaches (reads_of_pass made).2).of_advance
  -- A comment and a declaration, which begin with `<!`, are longer than that.
  have same (four : lead cur.previous? cur.rest = .markupComment ∨
      lead cur.previous? cur.rest = .declaration → Shares tail tail' 4 cur) :
      lead cur'.previous? cur'.rest = lead cur.previous? cur.rest :=
    fork.lead_eq (three.mono (by omega)) fun mark => four (lead_of_mark mark _)
  simp only [pass] at made ⊢
  split at made
  · contradiction
  · next begins =>
    cases made
    have four : Shares tail tail' 4 cur :=
      (room.of_reaches (Cursor.reaches_read _ _ _)).of_advance.mono (by omega)
    rw [same fun _ => four, begins]
    exact ⟨_, rfl, ((fork.advance four).read zero).2.2⟩
  · next begins =>
    cases made
    obtain ⟨more, mark⟩ := mark_of_declaration begins
    have further := Cursor.reaches_readPast_next (Cursor.rest_next mark) (show '!' ≠ '>' by decide)
    have four : Shares tail tail' 4 cur := by
      rw [Cursor.next, Cursor.next_advance] at further
      exact (room.of_reaches further).of_advance
    rw [same fun _ => four, begins]
    exact ⟨_, rfl, ((fork.next (four.mono (by omega))).readPast zero).2⟩
  · next begins =>
    have begins' := same (by rw [begins]; simp)
    rw [begins] at begins'
    rw [begins']
    have stop : next.cursor = (Group.read cur).cursor := by
      split at made
      · contradiction
      · split at made
        · cases made; rfl
        · cases made; rfl
    rw [stop] at zero ⊢
    obtain ⟨code, closed, moved⟩ := fork.group zero
    refine ⟨(Group.read cur').cursor, ?_, moved⟩
    dsimp only
    rw [closed, code, Group.trimmed, code, ← Group.trimmed]
    split at made
    · contradiction
    · next whole =>
      rw [if_neg whole]
      split at made
      · next comment => cases made; rw [if_pos comment]
      · next comment => cases made; rw [if_neg comment]
  · next begins =>
    cases made
    have begins' := same (by rw [begins]; simp)
    rw [begins', begins]
    exact ⟨_, rfl, ((fork.advance (three.mono (by omega))).readPast zero).2⟩
  · next begins =>
    cases made
    have begins' := same (by rw [begins]; simp)
    obtain ⟨ended, moved⟩ := (fork.next (three.mono (by omega))).readPast zero
    rw [begins', begins]
    dsimp only
    rw [ended]
    exact ⟨_, rfl, moved⟩
  · next c begins =>
    cases made
    have begins' := same (by rw [begins]; simp)
    rw [begins', begins]
    exact ⟨_, rfl, fork.next (three.mono (by omega))⟩

theorem passes_fork {last : Half} {cur' : Cursor} (passes : Loop.Passes (pass mode) half last)
    (room : Shares tail tail' 2 last.cursor) (fork : Fork tail tail' half.cursor cur') :
    ∃ stop, Loop.Passes (pass mode) { half with cursor := cur' } { last with cursor := stop } ∧
      Fork tail tail' last.cursor stop := by
  obtain ⟨_, passes', stop, rfl, moved⟩ := passes.follow (pass mode)
    (fun half => Shares tail tail' 2 half.cursor)
    (fun half half' => ∃ stop, half' = { half with cursor := stop } ∧ Fork tail tail' half.cursor stop)
    (fun made room => room.of_reaches (reaches_of_pass made))
    (by
      rintro half next _ made room ⟨cur', rfl, fork⟩
      obtain ⟨stop, made', moved⟩ := pass_fork made room fork
      exact ⟨_, made', stop, rfl, moved⟩)
    room _ ⟨cur', rfl, fork⟩
  exact ⟨stop, passes', moved⟩

/-- Reading content comes to where it stops, and makes no further pass there. -/
theorem exists_last {segments : List Segment} {stop : Cursor}
    (h : half.read mode = .ok (segments, stop)) :
    ∃ last, Loop.Passes (pass mode) half last ∧ last.cursor = stop ∧
      lead stop.previous? stop.rest = .stop ∧
      (flush last.pending last.segments).reverse = segments := by
  obtain ⟨last, passes, ends⟩ := Loop.exists_last (fun _ => True)
    (fun half => half.cursor.rest.length) (read_eq_pass mode)
    (fun half next _ made => ⟨trivial, by
      obtain ⟨more, onward⟩ := reads_of_pass made
      exact Nat.lt_of_le_of_lt onward.length_le (Cursor.length_next_lt more)⟩)
    half trivial
  rw [h] at ends
  refine ⟨last, passes, ?_⟩
  obtain ⟨pending, before, cur⟩ := last
  simp only [pass] at ends
  split at ends
  · next begins =>
    cases ends
    exact ⟨rfl, begins, rfl⟩
  all_goals
    repeat' split at ends
    all_goals cases ends

/-- Content up to a tag is read alike in both texts.  There must be room for the beginning
of the tag, which ends it. -/
theorem Half.read_fork (half : Half) {segments : List Segment} {cur' stop : Cursor}
    (fork : Fork tail tail' half.cursor cur') (h : half.read mode = .ok (segments, stop))
    (room : Shares tail tail' 2 stop) :
    ∃ stop', ({ half with cursor := cur' } : Half).read mode = .ok (segments, stop') ∧
      Fork tail tail' stop stop' := by
  obtain ⟨last, passes, rfl, begins, rfl⟩ := exists_last h
  obtain ⟨stop', passes', moved⟩ := passes_fork passes room fork
  have begins' : lead stop'.previous? stop'.rest = .stop := by
    rw [moved.lead_eq room fun mark => ?_, begins]
    exact absurd (lead_of_mark mark last.cursor.previous?) (by rw [begins]; simp)
  refine ⟨stop', ?_, moved⟩
  rw [Loop.eq_of_passes (read_eq_pass mode) passes', Half.read, readFrom_eq]
  dsimp only
  rw [begins']

theorem read_fork {segments : List Segment} {cur cur' stop : Cursor}
    (fork : Fork tail tail' cur cur') (h : read mode cur = .ok (segments, stop))
    (room : Shares tail tail' 2 stop) :
    ∃ stop', read mode cur' = .ok (segments, stop') ∧ Fork tail tail' stop stop' :=
  Half.read_fork ⟨[], [], cur⟩ fork h room

end Content

/-! ## Tags -/

/-- The same text stands before two places that form a fork. -/
theorem Cursor.Fork.between_eq {cur cur' start start' : Cursor} (fork : Fork tail tail' cur cur')
    (ahead : Fork tail tail' start start') (reached : cur.Reaches start)
    (reached' : cur'.Reaches start') : cur'.between start' = cur.between start := by
  obtain ⟨text, rest, rest'⟩ := fork.rest
  obtain ⟨less, left, left'⟩ := ahead.rest
  have whole : cur.between start ++ less = text := by
    have whole := reached.between_append_rest
    rw [rest, left, ← List.append_assoc] at whole
    exact List.append_cancel_right whole
  have whole' : cur'.between start' ++ less = text := by
    have whole := reached'.between_append_rest
    rw [rest', left', ← List.append_assoc] at whole
    exact List.append_cancel_right whole
  exact List.append_cancel_right (whole'.trans whole.symm)

namespace Fragment

variable {reader : Reader} {cur cur' : Cursor}

theorem readOpening_fork {assembly : Assembly} {turn : Turn}
    (fork : Fork tail tail' cur.next cur'.next) (h : readOpening reader assembly cur = .ok turn)
    (room : Shares tail tail' 0 turn.cursor) :
    ∃ stop, readOpening reader assembly cur' = .ok { turn with cursor := stop } ∧
      Fork tail tail' turn.cursor stop := by
  rw [readOpening_eq] at h
  obtain ⟨⟨header, stop⟩, taken, h⟩ := bind_eq_ok.1 h
  obtain ⟨attributes, nested, h⟩ := bind_eq_ok.1 h
  cases h
  obtain ⟨stop', taken', moved⟩ := Header.read_fork fork taken (Header.apart_of_shares taken room)
  refine ⟨stop', ?_, moved⟩
  rw [readOpening_eq, taken', ok_bind]
  dsimp only at nested ⊢
  rw [nested, ok_bind]

/-- The name of a closing tag and its end. -/
theorem closing_fork (fork : Fork tail tail' cur cur') (more : cur.rest ≠ [])
    (more' : cur'.rest ≠ []) (room : Shares tail tail' 0 (Descent.closing cur more).after.1) :
    (Descent.closing cur' more').name = (Descent.closing cur more).name ∧
      (Descent.closing cur' more').ended = (Descent.closing cur more).ended ∧
      Fork tail tail' (Descent.closing cur more).after.1 (Descent.closing cur' more').after.1 := by
  unfold Descent.closing at room ⊢
  dsimp only at room ⊢
  have atEnd := room.before_read
  have atWord := atEnd.of_reaches (.advance _ _)
  have opened := fork.advance (n := 2)
    ((atWord.of_reaches (Cursor.reaches_skipSpace _)).of_advance.mono (by omega))
  have start := opened.skipSpace atWord
  have word := start.takeWhile_eq atEnd
  have named := start.advance (atEnd.of_advance.mono (Nat.le_add_left _ _))
  rw [word]
  exact ⟨rfl, named.readPast room⟩

theorem closingFault?_position {name : String} {position : Position} {current : Option String}
    (none : closingFault? name position current = none) (position' : Position) :
    closingFault? name position' current = Option.none := by
  unfold closingFault? at none ⊢
  cases current with
  | none => contradiction
  | some open' =>
    dsimp only at none ⊢
    split at none
    · contradiction
    · next same => rw [if_neg same]

theorem readClosing_fork {assembly : Assembly} {turn : Turn} (fork : Fork tail tail' cur cur')
    (more : cur.rest ≠ []) (more' : cur'.rest ≠ [])
    (h : readClosing reader assembly cur = .ok turn) (room : Shares tail tail' 0 turn.cursor) :
    ∃ stop, readClosing reader assembly cur' = .ok { turn with cursor := stop } ∧
      Fork tail tail' turn.cursor stop := by
  have closes (cur : Cursor) (more : cur.rest ≠ []) : readClosing reader assembly cur = _ :=
    Descent.readClosing_eq reader.mode reader.cut assembly cur more
  rw [closes cur more] at h
  rw [closes cur' more']
  dsimp only at h ⊢
  cases mode : reader.mode with
  | lenient =>
    simp only [mode] at h ⊢
    cases h
    obtain ⟨name, -, moved⟩ := closing_fork fork more more' room
    rw [name]
    exact ⟨_, rfl, moved⟩
  | strict =>
    simp only [mode] at h ⊢
    split at h
    · next ended =>
      split at h
      · contradiction
      · next matched =>
        cases h
        obtain ⟨name, ended', moved⟩ := closing_fork fork more more' room
        rw [name, ended', if_pos ended, closingFault?_position matched]
        exact ⟨_, rfl, moved⟩
    · contradiction

/-- A tag is told from the two characters it begins with. -/
theorem readTag_fork {assembly : Assembly} {turn : Turn} (fork : Fork tail tail' cur cur')
    (more : cur.rest ≠ []) (ahead : Shares tail tail' 2 cur)
    (h : readTag reader assembly cur = .ok turn) (room : Shares tail tail' 0 turn.cursor) :
    ∃ stop, readTag reader assembly cur' = .ok { turn with cursor := stop } ∧
      Fork tail tail' turn.cursor stop := by
  have one := ahead.mono (show 1 ≤ 2 by omega)
  obtain ⟨c, rest, begins⟩ := List.exists_cons_of_ne_nil more
  obtain ⟨less, begins'⟩ := fork.rest_cons one begins
  have more' : cur'.rest ≠ [] := by rw [begins']; exact List.cons_ne_nil _ _
  unfold readTag at h ⊢
  rw [← fork.peekAt?_eq ahead]
  split at h
  · next slash =>
    rw [if_pos slash]
    exact readClosing_fork fork more more' h room
  · next slash =>
    rw [if_neg slash]
    exact readOpening_fork (fork.next one) h room

/-- The loop over tags, by induction on its run on one of the texts. -/
theorem readOn_fork {turn : Turn} {result : Assembly} {stop : Cursor} (cur' : Cursor)
    (fork : Fork tail tail' turn.cursor cur') (h : readOn reader turn = .ok (result, stop))
    (room : Shares tail tail' 0 stop) :
    ∃ stop', readOn reader { turn with cursor := cur' } = .ok (result, stop') ∧
      Fork tail tail' stop stop' := by
  fun_induction readOn reader turn generalizing cur' with
  | case1 assembly cur =>
    cases h
    exact ⟨cur', readOn_false _ _ _, fork⟩
  | case2 => contradiction
  | case3 => contradiction
  | case4 assembly cur segments last content grown added ended =>
    cases h
    -- The text ends, so the two never part.
    obtain ⟨rfl, rfl⟩ := room.eq_nil ended
    obtain ⟨last', content', moved⟩ := Content.read_fork fork content (.inl ⟨rfl, rfl⟩)
    refine ⟨last', ?_, moved⟩
    rw [readOn_true, content', ok_bind]
    dsimp only
    rw [added, ok_bind, if_pos (moved.rest_eq.symm.trans ended)]
  | case5 => contradiction
  | case6 assembly cur segments last content grown added more turn taken ih =>
    -- A tag follows the content, and the fragment ends after it.
    have atTurn := room.of_reaches (reaches_readOn h)
    have ahead : Shares tail tail' 2 last := by
      have begins := Content.tagBegins_of_read content more
      unfold Content.tagBegins at begins
      split at begins
      · next c rest tag =>
        exact atTurn.before_tag tag (by decide) (reaches_readTag taken) (afterTag_readTag taken)
      · contradiction
    obtain ⟨last', content', moved⟩ := Content.read_fork fork content ahead
    have more' : last'.rest ≠ [] := by
      obtain ⟨c, rest, begins⟩ := List.exists_cons_of_ne_nil more
      obtain ⟨less, begins'⟩ := moved.rest_cons (ahead.mono (by omega)) begins
      rw [begins']
      exact List.cons_ne_nil _ _
    obtain ⟨next, taken', beyond⟩ := readTag_fork moved more ahead taken atTurn
    obtain ⟨stop', rest, final⟩ := ih next beyond h
    refine ⟨stop', ?_, final⟩
    rw [readOn_true, content', ok_bind]
    dsimp only
    rw [added, ok_bind, if_neg more', taken', ok_bind]
    exact rest

/-- Whether anything is left open does not depend on the place. -/
theorem conclude_anywhere {mode : Mode} {assembly : Assembly} {last stop : Cursor}
    {root : Option Node} (h : conclude mode (assembly, last) = .ok (root, stop)) :
    last = stop ∧ ∀ other, conclude mode (assembly, other) = .ok (root, other) := by
  unfold conclude at h ⊢
  dsimp only at h ⊢
  split at h
  · contradiction
  · cases h
    exact ⟨rfl, fun other => rfl⟩

/-- A fragment is read alike in both texts. -/
theorem readRoot_fork {root : Option Node} {stop : Cursor}
    (rest : ∃ ahead, cur.rest = ahead ++ tail ∧ cur'.rest = ahead ++ tail') (more : cur.rest ≠ [])
    (h : readRoot reader cur = .ok (root, stop)) (room : Shares tail tail' 0 stop) :
    ∃ stop', readRoot reader cur' = .ok (root, stop') ∧ Fork tail tail' stop stop' := by
  have one := (room.of_reaches (reaches_readRoot h)).of_advance
  rw [readRoot_eq] at h
  obtain ⟨turn, opened, h⟩ := bind_eq_ok.1 h
  obtain ⟨⟨assembly, last⟩, read, h⟩ := bind_eq_ok.1 h
  obtain ⟨rfl, concluded⟩ := conclude_anywhere h
  obtain ⟨next, opened', moved⟩ := readOpening_fork (Cursor.fork_next rest more one) opened
    (room.of_reaches (reaches_readOn read))
  obtain ⟨stop', read', final⟩ := readOn_fork next moved read room
  refine ⟨stop', ?_, final⟩
  rw [readRoot_eq, opened', ok_bind, read', ok_bind, concluded]

/-! ## Fragments half read -/

theorem reaches_of_pass {half next : Half} (made : pass reader half = .inl next) :
    half.cursor.Reaches next.cursor := by
  by_cases content : half.stage = .content
  · exact (tag_of_contentPass content made).2.1
  · exact (Cursor.reaches_next _).trans ((reads_of_tagPass content).1 next made).2

theorem afterTag_eq_inl {tag : Except Error Turn} {next : Half} :
    afterTag tag = .inl next ↔
      ∃ assembly cur, tag = .ok ⟨true, assembly, cur⟩ ∧ next = ⟨.content, assembly, cur⟩ := by
  unfold afterTag
  split
  · simp
  · next assembly cur =>
    constructor
    · intro h
      exact ⟨assembly, cur, rfl, (Sum.inl.inj h).symm⟩
    · rintro ⟨_, _, same, rfl⟩
      cases same
      rfl
  · simp

/-- A pass over a fragment, with room for the beginning of a tag after it. -/
theorem pass_fork {half next : Half} (ahead : half.Ahead) (made : pass reader half = .inl next)
    (room : Shares tail tail' 2 next.cursor) (fork : Fork tail tail' half.cursor cur') :
    ∃ stop, pass reader { half with cursor := cur' } = .inl { next with cursor := stop } ∧
      Fork tail tail' next.cursor stop := by
  have one := (room.of_reaches (reaches_of_pass made)).mono (show 1 ≤ 2 by omega)
  have zero := room.mono (show 0 ≤ 2 by omega)
  obtain ⟨stage, assembly, cur⟩ := half
  dsimp only at fork one ⊢
  cases stage with
  | tagOpen =>
    obtain ⟨grown, last, opened, rfl⟩ := afterTag_eq_inl.1 made
    obtain ⟨stop, opened', moved⟩ := readOpening_fork (fork.next one) opened zero
    exact ⟨stop, afterTag_eq_inl.2 ⟨_, _, opened', rfl⟩, moved⟩
  | endTag =>
    obtain ⟨grown, last, closed, rfl⟩ := afterTag_eq_inl.1 made
    have more : cur.rest ≠ [] := ahead (by simp)
    obtain ⟨c, rest, begins⟩ := List.exists_cons_of_ne_nil more
    obtain ⟨rest', begins'⟩ := fork.rest_cons one begins
    obtain ⟨stop, closed', moved⟩ := readClosing_fork fork more (by rw [begins']; simp) closed zero
    exact ⟨stop, afterTag_eq_inl.2 ⟨_, _, closed', rfl⟩, moved⟩
  | content =>
    simp only [pass] at made ⊢
    split at made
    · contradiction
    · next segments last read =>
      split at made
      · contradiction
      · next grown added =>
        split at made
        · contradiction
        · next more =>
          cases made
          obtain ⟨stop, read', moved⟩ := Content.read_fork fork read room
          obtain ⟨c, rest, begins⟩ := List.exists_cons_of_ne_nil more
          obtain ⟨rest', begins'⟩ := moved.rest_cons (room.mono (by omega)) begins
          refine ⟨stop, ?_, moved⟩
          rw [read']
          dsimp only
          rw [added]
          dsimp only
          rw [if_neg (by rw [begins']; simp), moved.peekAt?_eq room]

theorem passes_fork {half last : Half} (ahead : half.Ahead)
    (passes : Loop.Passes (pass reader) half last) (room : Shares tail tail' 2 last.cursor)
    (fork : Fork tail tail' half.cursor cur') :
    ∃ stop, Loop.Passes (pass reader) { half with cursor := cur' } { last with cursor := stop } ∧
      Fork tail tail' last.cursor stop := by
  obtain ⟨_, passes', -, stop, rfl, moved⟩ := passes.follow (pass reader)
    (fun half => Shares tail tail' 2 half.cursor)
    (fun half half' => half.Ahead ∧
      ∃ stop, half' = { half with cursor := stop } ∧ Fork tail tail' half.cursor stop)
    (fun made room => room.of_reaches (reaches_of_pass made))
    (by
      rintro half next _ made room ⟨ahead, cur', rfl, fork⟩
      obtain ⟨stop, made', moved⟩ := pass_fork ahead made room fork
      exact ⟨_, made', (measure_pass ahead made).1, stop, rfl, moved⟩)
    room _ ⟨ahead, cur', rfl, fork⟩
  exact ⟨stop, passes', moved⟩

/-! ## Code cut into pieces -/

theorem splitPass_eq_inl {pieces : List Piece} {next : List Piece × Cursor} :
    splitPass reader (pieces, cur) = .inl next ↔
      ∃ fragment, nextWith reader cur = .ok (some fragment) ∧
        next = (pieces ++ (codePieces (cur.between fragment.start) ++ [.markup fragment.root]),
          fragment.stop) := by
  unfold splitPass
  dsimp only
  split
  · next failed => simp [failed]
  · next none => simp [none]
  · next fragment found =>
    constructor
    · intro h
      exact ⟨fragment, found, (Sum.inl.inj h).symm⟩
    · rintro ⟨_, same, rfl⟩
      cases found.symm.trans same
      rfl

theorem reaches_of_splitPass {state next : List Piece × Cursor}
    (made : splitPass reader state = .inl next) : state.2.Reaches next.2 := by
  obtain ⟨fragment, found, rfl⟩ := splitPass_eq_inl.1 made
  obtain ⟨ahead, -, beyond, -⟩ := nextWith_sound found
  exact (ahead.trans (Cursor.reaches_next _)).trans beyond

/-- A fragment found in one text is found in the other, after the same code. -/
theorem splitPass_fork {pieces grown : List Piece} {stop : Cursor}
    (made : splitPass reader (pieces, cur) = .inl (grown, stop))
    (room : Shares tail tail' 2 stop) (fork : Fork tail tail' cur cur') :
    ∃ stop', splitPass reader (pieces, cur') = .inl (grown, stop') ∧
      Fork tail tail' stop stop' := by
  obtain ⟨fragment, found, same⟩ := splitPass_eq_inl.1 made
  obtain ⟨rfl, rfl⟩ := Prod.mk.inj same
  obtain ⟨sought, read⟩ := readRoot_of_nextWith found
  obtain ⟨ahead, begins, beyond, -⟩ := nextWith_sound found
  have atStart := room.of_reaches ((Cursor.reaches_next _).trans beyond)
  obtain ⟨start', sought', moved⟩ := Host.seek_fork fork sought atStart
  obtain ⟨stop', read', final⟩ :=
    readRoot_fork moved.rest (Descent.rest_ne_nil_of_start begins) read (room.mono (by omega))
  refine ⟨stop', splitPass_eq_inl.2 ⟨⟨start', stop', fragment.root⟩, ?_, ?_⟩, final⟩
  · rw [nextWith_eq_of_seek sought', read']
    rfl
  · rw [fork.between_eq moved ahead (Host.seek_sound sought').1]

theorem splitPasses_fork {pieces grown : List Piece} {last : Cursor}
    (passes : Loop.Passes (splitPass reader) (pieces, cur) (grown, last))
    (room : Shares tail tail' 2 last) (fork : Fork tail tail' cur cur') :
    ∃ last', Loop.Passes (splitPass reader) (pieces, cur') (grown, last') ∧
      Fork tail tail' last last' := by
  obtain ⟨⟨_, last'⟩, passes', same, moved⟩ := passes.follow (splitPass reader)
    (fun state => Shares tail tail' 2 state.2)
    (fun state state' => state'.1 = state.1 ∧ Fork tail tail' state.2 state'.2)
    (fun made room => room.of_reaches (reaches_of_splitPass made))
    (by
      rintro ⟨pieces, cur⟩ ⟨grown, stop⟩ ⟨_, cur'⟩ made room ⟨rfl, fork⟩
      obtain ⟨stop', made', moved⟩ := splitPass_fork made room fork
      exact ⟨(grown, stop'), made', rfl, moved⟩)
    room (pieces, cur') ⟨rfl, fork⟩
  obtain rfl : _ = grown := same
  exact ⟨last', passes', moved⟩

end Fragment

end InlineMarkup
