import InlineMarkup.Proofs.Following
import InlineMarkup.Proofs.Window

/-!
# InlineMarkup.Proofs.Isolation

Fragments do not depend on the text around them.  Nothing that is read or looked at
stands before the `<` of a fragment or after its last `>`, so two texts that part only
after it hold the same fragment; and one of them may just end there, as a
`Cursor.Window` does.

* `Fragment.readRoot_fork`, `Fragment.readRoot_window`: the fragment is read alike in both
  texts;
* `Fragment.parse_source`: so it is what its own source is read as;
* `Fragment.splitWith_window`: after a fragment, the rest of a text is cut as if it
  were a text of its own.
-/

namespace InlineMarkup

open Cursor (Fork Shares Window Room)
open Outcome (bind_eq_ok ok_bind)

namespace Fragment

theorem readRoot_window {reader : Reader} {after : List Char} {inner outer stop : Cursor}
    {root : Option Node} (rest : outer.rest = inner.rest ++ after) (more : inner.rest ≠ [])
    (h : readRoot reader outer = .ok (root, stop)) (room : Room after 0 stop) :
    ∃ stop', readRoot reader inner = .ok (root, stop') ∧ Window after stop' stop := by
  have more' : outer.rest ≠ [] := by rw [rest]; exact List.append_ne_nil_of_left_ne_nil more _
  obtain ⟨stop', read, fork⟩ :=
    readRoot_fork ⟨inner.rest, rest, (List.append_nil _).symm⟩ more' h room.shares
  exact ⟨stop', read, .of_fork fork⟩

/-! ## Fragments on their own -/

/-- The source of a fragment begins as markup does. -/
theorem markupStart_source {fragment : Fragment} (begins : Host.MarkupStart fragment.start.rest)
    (beyond : fragment.start.next.Reaches fragment.stop) (ends : fragment.stop.AfterTag) :
    Host.MarkupStart fragment.source := by
  have inside := (Cursor.reaches_next _).trans beyond
  have whole : fragment.source ++ fragment.stop.rest = fragment.start.rest :=
    inside.between_append_rest
  obtain ⟨c, more, rest, named⟩ := begins
  have room : Shares fragment.stop.rest [] 2 fragment.start :=
    (Room.shares (.inr (Nat.le_refl _))).before_tag rest (by decide) beyond ends
  have size : 2 ≤ fragment.source.length := by
    have total := congrArg List.length whole
    rw [List.length_append, rest] at total
    rw [Shares, rest] at room
    simp only [List.length_cons] at total room
    obtain ⟨none, -⟩ | ⟨-, enough⟩ := room
    · rw [none, List.length_nil] at total
      omega
    · omega
  match source : fragment.source, size with
  | x :: y :: less, _ =>
    rw [source, rest] at whole
    obtain ⟨rfl, rfl, -⟩ : x = '<' ∧ y = c ∧ less ++ fragment.stop.rest = more := by
      simpa using whole
    exact ⟨y, less, rfl, named⟩

/-- **A fragment is what its own source is read as.** -/
theorem parse_source {maker : NodeMaker} {mode : Mode} {cur : Cursor} {fragment : Fragment}
    (h : next maker mode cur = .ok (some fragment)) :
    parse maker mode (String.ofList fragment.source) = .ok fragment.root := by
  obtain ⟨ahead, begins, beyond, ends⟩ := nextWith_sound h
  have start : Host.MarkupStart (Cursor.ofList fragment.source).rest :=
    markupStart_source begins beyond ends
  have whole : fragment.start.rest = (Cursor.ofList fragment.source).rest ++ fragment.stop.rest :=
    ((Cursor.reaches_next _).trans beyond).between_append_rest.symm
  obtain ⟨stop, read, window⟩ := readRoot_window whole (Descent.rest_ne_nil_of_start start)
    (readRoot_of_nextWith h).2 (.inr (Nat.le_refl _))
  have still : (Cursor.ofList fragment.source).skipSpace = Cursor.ofList fragment.source := by
    obtain ⟨c, more, rest, -⟩ := start
    rw [Cursor.skipSpace, rest]
    rfl
  have ended : stop.rest = [] := List.append_left_eq_self.1 window.rest.symm
  have nothing : stop.skipSpace.atEnd = true := by
    rw [Cursor.atEnd, Cursor.rest_skipSpace, ended]
    rfl
  unfold parse
  rw [String.toList_ofList]
  dsimp only
  rw [still, if_pos (markupStart_iff.2 start), read, ok_bind]
  dsimp only
  rw [if_neg (by simp [nothing])]

/-! ## The rest of a text -/

section

variable {reader : Reader} {inner outer : Cursor}

theorem nextWith_window_none (window : Window [] inner outer)
    (h : nextWith reader outer = .ok none) : nextWith reader inner = .ok none := by
  obtain ⟨found, -⟩ | ⟨start, start', found, found', moved⟩ := Host.seek_window window
  · rw [nextWith_eq, found]
  · rw [seek_of_nextWith h] at found'
    contradiction

theorem nextWith_window_some {fragment : Fragment} (window : Window [] inner outer)
    (h : nextWith reader outer = .ok (some fragment)) :
    ∃ same : Fragment, nextWith reader inner = .ok (some same) ∧ same.root = fragment.root ∧
      Window [] same.start fragment.start ∧ Window [] same.stop fragment.stop := by
  obtain ⟨found', read⟩ := readRoot_of_nextWith h
  obtain ⟨-, none⟩ | ⟨start, start', found, again, moved⟩ := Host.seek_window window
  · rw [none] at found'
    contradiction
  · obtain rfl := Option.some.inj (again.symm.trans found')
    have more : start.rest ≠ [] := Descent.rest_ne_nil_of_start (Host.seek_sound found).2
    obtain ⟨stop, read', final⟩ := readRoot_window moved.rest more read (.inl rfl)
    refine ⟨⟨start, stop, fragment.root⟩, ?_, rfl, moved, final⟩
    rw [nextWith_eq_of_seek found, read']
    rfl

/-- A text is cut in the same way whatever neutral text stands before it. -/
theorem splitWith_window {pieces : List Piece} (inner : Cursor) (window : Window [] inner outer)
    (h : splitWith reader outer = .ok pieces) : splitWith reader inner = .ok pieces := by
  fun_induction splitWith reader outer generalizing inner pieces with
  | case1 => contradiction
  | case2 outer found =>
    rw [splitWith_eq, nextWith_window_none window found, ok_bind]
    dsimp only
    rw [window.symm.rest, List.append_nil]
    exact h
  | case3 outer fragment found ih =>
    obtain ⟨following, cut, h⟩ := bind_eq_ok.1 h
    obtain ⟨same, found', root, start, stop⟩ := nextWith_window_some window found
    have code : inner.between same.start = outer.between fragment.start := by
      have whole := (nextWith_sound found).1.between_append_rest
      have whole' := (nextWith_sound found').1.between_append_rest
      rw [start.rest, window.rest, List.append_nil, List.append_nil, ← whole'] at whole
      exact (List.append_cancel_right whole).symm
    rw [splitWith_eq, found', ok_bind]
    dsimp only
    rw [ih same.stop stop cut, ok_bind, code, root]
    exact h

end

/-- After a fragment, a text is cut as if it began there. -/
theorem split_rest {maker : NodeMaker} {mode : Mode} {stop : Cursor} {pieces : List Piece}
    (ends : stop.AfterTag) (h : splitWith (reader maker mode) stop = .ok pieces) :
    split maker mode (String.ofList stop.rest) = .ok pieces := by
  rw [split_eq, String.toList_ofList]
  obtain last | ended := ends
  · have window : Window [] (Cursor.ofList stop.rest) stop :=
      ⟨(List.append_nil _).symm, .inr ⟨.inr last, .inl rfl⟩⟩
    exact splitWith_window _ window h
  · have nothing (cur : Cursor) (ended : cur.rest = []) :
        splitWith (reader maker mode) cur = .ok [] := by
      rw [splitWith_eq, nextWith_eq, Host.seek, Host.seekFrom_nil _ ended, ok_bind]
      dsimp only
      rw [ended]
      rfl
    rw [nothing stop ended] at h
    rw [nothing (.ofList stop.rest) ended]
    exact h

end Fragment

/-- **Fragments do not depend on the text around them**: a fragment found from any
byte of a text is what its own source is read as, in the same mode and for any
node maker.  And a text is cut into the code before its first fragment, that
fragment, and what the text after it is cut into. -/
theorem fragment_isolated (maker : NodeMaker) (mode : Mode) (text : String) :
    (∀ offset fragment,
      Fragment.next maker mode (.atByte text.toList offset) = .ok (some fragment) →
        Text.slice? text.toList fragment.start.position.offset fragment.stop.position.offset =
            some fragment.source ∧
          Fragment.parse maker mode (String.ofList fragment.source) = .ok fragment.root) ∧
      ∀ pieces fragment, Fragment.split maker mode text = .ok pieces →
        Fragment.next maker mode (.atByte text.toList 0) = .ok (some fragment) →
          ∃ code remaining rest,
            Text.slice? text.toList 0 fragment.start.position.offset = some code ∧
              Text.slice? text.toList fragment.stop.position.offset (Text.byteCount text.toList) =
                some remaining ∧
              Fragment.split maker mode (String.ofList remaining) = .ok rest ∧
              pieces = Fragment.codePieces code ++ .markup fragment.root :: rest := by
  constructor
  · intro offset fragment h
    obtain ⟨ahead, -, beyond, -⟩ := Fragment.nextWith_sound h
    have whole : (Cursor.atByte text.toList offset).source = text.toList :=
      Text.reverse_append_cutBytes offset [] text.toList
    have slice := Cursor.slice?_between (ahead.counted rfl) ((Cursor.reaches_next _).trans beyond)
    rw [ahead.source_eq, whole] at slice
    exact ⟨slice, Fragment.parse_source h⟩
  · intro pieces fragment cut h
    have counted : (Cursor.ofList text.toList).Counted := rfl
    have first : Cursor.atByte text.toList 0 = .ofList text.toList := Cursor.atByte_offset counted
    rw [first, Fragment.next] at h
    obtain ⟨ahead, -, beyond, ends⟩ := Fragment.nextWith_sound h
    have inside := ahead.trans ((Cursor.reaches_next _).trans beyond)
    have remaining := Cursor.slice?_rest (inside.counted counted)
    rw [inside.source_eq] at remaining
    rw [Fragment.split_eq, Fragment.splitWith_eq, h, ok_bind] at cut
    obtain ⟨rest, tail, cut⟩ := bind_eq_ok.1 cut
    cases cut
    exact ⟨_, _, rest, Cursor.slice?_between counted ahead, remaining,
      Fragment.split_rest ends tail, rfl⟩

/-- A fragment between a division and a comment, with a slash in a value and a
comment at the start of its content. -/
def slashes : String := "é / 2, <p a=b/c>// d\n\x7bx\x7d</p>// <b/>\n<i/>"

/-- The fragment on its own, and the text after it. -/
theorem fragment_isolated_slashes :
    ∃ fragment pieces code remaining rest,
      Fragment.next .plain .strict (.atByte slashes.toList 0) = .ok (some fragment) ∧
        Fragment.parse .plain .strict (String.ofList fragment.source) = .ok fragment.root ∧
        Fragment.split .plain .strict slashes = .ok pieces ∧
        Fragment.split .plain .strict (String.ofList remaining) = .ok rest ∧
        pieces = Fragment.codePieces code ++ .markup fragment.root :: rest := by
  have some :
      (Fragment.next .plain .strict (.atByte slashes.toList 0)).toOption.join.isSome := by
    decide +kernel
  have cut : (Fragment.split .plain .strict slashes).toOption.isSome := by decide +kernel
  obtain ⟨fragment, found⟩ := Option.isSome_iff_exists.1 some
  have found := Outcome.eq_ok_of_toOption (Option.join_eq_some_iff.1 found)
  obtain ⟨pieces, cut⟩ := Option.isSome_iff_exists.1 cut
  have cut := Outcome.eq_ok_of_toOption cut
  have isolated := fragment_isolated .plain .strict slashes
  obtain ⟨code, remaining, rest, -, -, tail, whole⟩ := isolated.2 pieces fragment cut found
  exact ⟨fragment, pieces, code, remaining, rest, found, (isolated.1 0 fragment found).2, cut, tail,
    whole⟩

end InlineMarkup
