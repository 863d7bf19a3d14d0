import InlineMarkup.Proofs.Fork

/-!
# InlineMarkup.Proofs.Window

A part of a text read on its own.  Two cursors form a `Window` if the inner one
has the same text ahead as the outer one, but ends where the outer one goes on
with `after`; that is a `Cursor.Fork` one of whose texts just ends.

* `Host.seekFrom_window`: markup found in the inner text is found in the outer one;
* `Host.seek_window`: where nothing comes after the inner text, the same is found in both.
-/

namespace InlineMarkup

namespace Cursor

/-- The text ahead has `n` characters at least before `after`.  If nothing comes
after, the text just ends. -/
def Room (after : List Char) (n : Nat) (cur : Cursor) : Prop :=
  after = [] ∨ after.length + n ≤ cur.rest.length

theorem Room.shares {after : List Char} {n : Nat} {cur : Cursor} (room : Room after n cur) :
    Shares after [] n cur := by
  by_cases none : after = []
  · exact .inl ⟨none, rfl⟩
  · have positive := List.length_pos_iff.2 none
    have enough := room.resolve_left none
    exact .inr ⟨List.length_pos_iff.1 (by omega), enough⟩

/-- The inner text ends where the outer one goes on with `after`. -/
structure Window (after : List Char) (inner outer : Cursor) : Prop where
  rest : outer.rest = inner.rest ++ after
  previous : outer.previous? = inner.previous? ∨ Neutral outer.previous? ∧ Neutral inner.previous?

namespace Window

variable {after : List Char} {inner outer : Cursor}

theorem symm (window : Window [] inner outer) : Window [] outer inner where
  rest := by rw [window.rest, List.append_nil, List.append_nil]
  previous := window.previous.imp Eq.symm And.symm

theorem fork (window : Window after inner outer) : Fork after [] outer inner :=
  ⟨⟨inner.rest, window.rest, (List.append_nil _).symm⟩, window.previous⟩

theorem of_fork (fork : Fork after [] outer inner) : Window after inner outer := by
  obtain ⟨ahead, rest, rest'⟩ := fork.rest
  rw [List.append_nil] at rest'
  exact ⟨by rw [rest, rest'], fork.previous⟩

end Window

end Cursor

open Cursor (Window Room)

namespace Host

/-- Markup found in the inner text is found in the outer one: up to it, and for
one character more, the two are the same. -/
theorem seekFrom_window {context : Context} {after : List Char} {inner found : Cursor}
    (outer : Cursor) (window : Window after inner outer) (h : seekFrom context inner = some found) :
    ∃ found', seekFrom context outer = some found' ∧ Window after found found' := by
  obtain ⟨c, more, begins, -⟩ := (seekFrom_sound h).2
  have room : Cursor.Shares [] after 2 found := .inr ⟨by simp [begins], by simp [begins]⟩
  obtain ⟨found', again, fork⟩ := seekFrom_fork outer window.fork.symm h room
  exact ⟨found', again, .of_fork fork.symm⟩

/-- Where nothing comes after the inner text, the same is found in both. -/
theorem seek_window {inner outer : Cursor} (window : Window [] inner outer) :
    seek inner = none ∧ seek outer = none ∨
      ∃ start start', seek inner = some start ∧ seek outer = some start' ∧ Window [] start start' := by
  cases found : seek inner with
  | some start =>
    obtain ⟨start', found', moved⟩ := seekFrom_window outer window found
    exact .inr ⟨start, start', rfl, found', moved⟩
  | none =>
    left
    refine ⟨rfl, ?_⟩
    cases found' : seek outer with
    | none => rfl
    | some start' =>
      obtain ⟨start, again, -⟩ := seekFrom_window inner window.symm found'
      rw [seek, again] at found
      contradiction

end Host

end InlineMarkup
