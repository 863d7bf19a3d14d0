import InlineMarkup.Text.Cursor

/-!
# InlineMarkup.Proofs.Places

Places in a text, as cursors and as byte offsets.  A cursor that counts its
position is the one `atByte` gives for its offset, so what is read between two
cursors is a slice of the text, in bytes:

* `Text.slice?_append`: a slice at character boundaries is the text between;
* `Cursor.atByte_offset`: a cursor is where its offset says;
* `Cursor.slice?_between`: what lies between two cursors is the slice between
  their offsets.
-/

namespace InlineMarkup

/-! ## Slices -/

namespace Text

@[simp] theorem byteCount_reverse (text : List Char) : byteCount text.reverse = byteCount text := by
  induction text with
  | nil => rfl
  | cons c text ih =>
    rw [List.reverse_cons, byteCount_append, ih, byteCount_cons, byteCount_cons, byteCount_nil]
    omega

theorem dropBytes?_append (first rest : List Char) :
    dropBytes? (byteCount first) (first ++ rest) = some rest := by
  induction first with
  | nil => rw [byteCount_nil, dropBytes?, List.nil_append]
  | cons c first ih =>
    obtain ⟨n, size⟩ : ∃ n, byteCount (c :: first) = n + 1 :=
      Nat.exists_eq_succ_of_ne_zero (by have := c.utf8Size_pos; rw [byteCount_cons]; omega)
    have left : n + 1 - c.utf8Size = byteCount first := by rw [← size, byteCount_cons]; omega
    have fits : c.utf8Size ≤ n + 1 := by rw [← size, byteCount_cons]; omega
    rw [size, List.cons_append, dropBytes?, if_pos fits, left, ih]

theorem takeBytes?_append (taken first rest : List Char) :
    takeBytes? taken (byteCount first) (first ++ rest) = some (taken.reverse ++ first) := by
  induction first generalizing taken with
  | nil => rw [byteCount_nil, takeBytes?, List.append_nil]
  | cons c first ih =>
    obtain ⟨n, size⟩ : ∃ n, byteCount (c :: first) = n + 1 :=
      Nat.exists_eq_succ_of_ne_zero (by have := c.utf8Size_pos; rw [byteCount_cons]; omega)
    have left : n + 1 - c.utf8Size = byteCount first := by rw [← size, byteCount_cons]; omega
    have fits : c.utf8Size ≤ n + 1 := by rw [← size, byteCount_cons]; omega
    rw [size, List.cons_append, takeBytes?, if_pos fits, left, ih, List.reverse_cons,
      List.append_assoc, List.singleton_append]

/-- A slice whose bounds are character boundaries. -/
theorem slice?_append (before text after : List Char) :
    slice? (before ++ (text ++ after)) (byteCount before) (byteCount before + byteCount text) =
      some text := by
  rw [slice?, if_pos (Nat.le_add_right _ _), dropBytes?_append, Nat.add_sub_cancel_left]
  exact takeBytes?_append [] text after

/-- A cut stops before the character that holds its last byte. -/
theorem lt_of_cutBytes {n : Nat} {seen rest taken left : List Char} {c : Char}
    (h : cutBytes n seen rest = (taken, c :: left)) :
    n + byteCount seen < byteCount taken + c.utf8Size := by
  induction rest generalizing n seen with
  | nil => simp [cutBytes] at h
  | cons d rest ih =>
    rw [cutBytes] at h
    split at h
    · have := ih h
      rw [byteCount_cons] at this
      omega
    · obtain ⟨rfl, rest_eq⟩ := Prod.mk.inj h
      obtain ⟨rfl, -⟩ := List.cons.inj rest_eq
      omega

end Text

/-! ## Cursors -/

namespace Cursor

/-- A cursor is where its offset says. -/
theorem atByte_offset {cur : Cursor} (counted : cur.Counted) :
    atByte cur.source cur.position.offset = cur := by
  obtain ⟨seen, rest, position⟩ := cur
  have cut := Text.cutBytes_append seen.reverse [] rest
  rw [Text.byteCount_reverse, List.reverse_reverse, List.append_nil] at cut
  simp only [Counted] at counted
  subst counted
  simp only [atByte, source, Position.after]
  rw [cut]

theorem seen_advance (n : Nat) (cur : Cursor) :
    (cur.advance n).seen = (cur.rest.take n).reverse ++ cur.seen := by
  induction n generalizing cur with
  | zero => rfl
  | succ n ih =>
    obtain ⟨seen, rest, position⟩ := cur
    cases rest with
    | nil => rfl
    | cons c rest => simp [advance, ih]

theorem rest_of_append {cur : Cursor} {text rest : List Char} (h : cur.rest = text ++ rest) :
    (cur.advance text.length).rest = rest := by
  rw [rest_advance, h, List.drop_left]

theorem rest_next {cur : Cursor} {c : Char} {rest : List Char} (h : cur.rest = c :: rest) :
    cur.next.rest = rest := by
  rw [next, rest_advance, h]
  rfl

theorem next_advance (n : Nat) (cur : Cursor) : cur.next.advance n = cur.advance (n + 1) := by
  rw [next, advance_advance, Nat.add_comm]

namespace Reaches

theorem source_eq {cur later : Cursor} (h : cur.Reaches later) : later.source = cur.source := by
  obtain ⟨n, rfl⟩ := h
  exact source_advance n cur

theorem counted {cur later : Cursor} (h : cur.Reaches later) (counted : cur.Counted) :
    later.Counted := by
  obtain ⟨n, rfl⟩ := h
  exact advance_counted counted n

theorem offset_le {cur later : Cursor} (h : cur.Reaches later) :
    cur.position.offset ≤ later.position.offset := by
  obtain ⟨n, rfl⟩ := h
  rw [offset_advance]
  omega

/-- What lies between two cursors, and what the later one has left. -/
theorem between_append_rest {cur later : Cursor} (h : cur.Reaches later) :
    cur.between later ++ later.rest = cur.rest := by
  obtain ⟨n, rfl⟩ := h
  rw [between_advance, rest_advance, List.take_append_drop]

theorem between_append_seen {cur later : Cursor} (h : cur.Reaches later) :
    (cur.between later).reverse ++ cur.seen = later.seen := by
  obtain ⟨n, rfl⟩ := h
  rw [between_advance, seen_advance]

theorem byteCount_between {cur later : Cursor} (h : cur.Reaches later) :
    cur.position.offset + Text.byteCount (cur.between later) = later.position.offset := by
  obtain ⟨n, rfl⟩ := h
  rw [between_advance, offset_advance]

end Reaches

/-- One character read moves the offset on. -/
theorem offset_lt_of_next {cur later : Cursor} (more : cur.rest ≠ []) (h : cur.next.Reaches later) :
    cur.position.offset < later.position.offset := by
  have onward := h.offset_le
  obtain ⟨c, rest, begins⟩ := List.exists_cons_of_ne_nil more
  have one : cur.next.position.offset = cur.position.offset + c.utf8Size := by
    rw [next, offset_advance, begins]
    rfl
  have := c.utf8Size_pos
  omega

theorem Counted.offset_eq {cur : Cursor} (counted : cur.Counted) :
    cur.position.offset = Text.byteCount cur.consumed := by
  rw [counted, consumed, Text.byteCount_reverse]
  rfl

/-- No offset lies past the end. -/
theorem Counted.offset_le {cur : Cursor} (counted : cur.Counted) :
    cur.position.offset ≤ Text.byteCount cur.source := by
  rw [counted.offset_eq, source, ← consumed, Text.byteCount_append]
  omega

/-- At the end of the text the offset is its length. -/
theorem Counted.offset_of_rest_nil {cur : Cursor} (counted : cur.Counted) (ended : cur.rest = []) :
    cur.position.offset = Text.byteCount cur.source := by
  rw [counted.offset_eq, source, ended, List.append_nil, ← consumed]

/-- What lies between two cursors is the slice between their offsets. -/
theorem slice?_between {cur later : Cursor} (counted : cur.Counted) (h : cur.Reaches later) :
    Text.slice? cur.source cur.position.offset later.position.offset =
      some (cur.between later) := by
  have whole : cur.source = cur.consumed ++ (cur.between later ++ later.rest) := by
    rw [h.between_append_rest]
    rfl
  rw [whole, ← h.byteCount_between, counted.offset_eq]
  exact Text.slice?_append _ _ _

/-- What is left at a cursor is the slice from its offset to the end. -/
theorem slice?_rest {cur : Cursor} (counted : cur.Counted) :
    Text.slice? cur.source cur.position.offset (Text.byteCount cur.source) = some cur.rest := by
  have size : Text.byteCount cur.source = Text.byteCount cur.consumed + Text.byteCount cur.rest := by
    rw [source, ← consumed, Text.byteCount_append]
  have cut := Text.slice?_append cur.consumed cur.rest []
  rw [List.append_nil, ← size, ← counted.offset_eq] at cut
  exact cut

/-- From an offset inside a character or past the end, nothing that starts with
a character of one byte is found before the offset. -/
theorem le_offset_of_atByte {text rest : List Char} {offset : Nat} {later : Cursor} {c : Char}
    (h : (atByte text offset).Reaches later) (begins : later.rest = c :: rest)
    (narrow : c.utf8Size = 1) : offset ≤ later.position.offset := by
  obtain ⟨n, rfl⟩ := h
  cases left : (atByte text offset).rest with
  | nil => rw [rest_advance, left, List.drop_nil] at begins; contradiction
  | cons d more =>
    have bound : offset < (atByte text offset).position.offset + d.utf8Size :=
      Text.lt_of_cutBytes (Prod.ext rfl left)
    rw [offset_advance, left]
    cases n with
    | zero =>
      rw [advance_zero, left] at begins
      obtain ⟨rfl, -⟩ := List.cons.inj begins
      omega
    | succ n =>
      rw [List.take_succ_cons, Text.byteCount_cons]
      omega

end Cursor

end InlineMarkup
