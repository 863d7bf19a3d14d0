import InlineMarkup.Proofs.Faults
import InlineMarkup.Proofs.Splice
import InlineMarkup.Proofs.Totality
import Mathlib.Logic.Relation

/-!
# InlineMarkup.Proofs.Pointing

The faults that strict reading reports point at what they name.  The readers of tags and
content are put together by recursive descent (`Descent.faulty_of_element`,
`Descent.faulty_of_content`), then fragments, the search for them, and code cut into
pieces.  A position is counted in the text that is being read; for code in braces that is
the code itself, without the white space around it, and so on inward (`Within`).  All of
it is put together in `fault_points`.
-/

namespace InlineMarkup

open Outcome (bind_eq_ok bind_eq_error)
open Text (Blank)
open Unicode (isSpace)

/-! ## Fragments -/

namespace Descent

variable {cut : String → Except Error (List Piece)} {fault : Error}

/-- An element that is not read to its end, if its content is not read for the reasons
given. -/
theorem faulty_of_element {cur : Cursor} (more : cur.rest ≠ []) (opens : cur.peek? = some '<')
    (ih : ∀ name later, later.rest.length < cur.rest.length →
      plain (content .strict cut name later) = .error fault → Faulty cut later fault)
    (h : plain (element .strict cut cur more) = .error fault) : Faulty cut cur fault := by
  obtain ⟨rest, begins⟩ := List.head?_eq_some_iff.1 opens
  have one := Cursor.reaches_next cur
  have previous := Cursor.previous?_next begins
  rw [plain_element] at h
  obtain failed | ⟨⟨header, after⟩, taken, h⟩ := bind_eq_error.1 h
  · exact (Header.faulty_of_read previous failed).mono one
  obtain failed | ⟨attributes, -, h⟩ := bind_eq_error.1 h
  · exact (faulty_of_nestAttributes previous taken failed).mono one
  split at h
  · contradiction
  · have onward := Header.reaches_read taken
    have shorter := Nat.lt_of_le_of_lt onward.length_le (Cursor.length_next_lt more)
    obtain failed | ⟨inside, -, h⟩ := bind_eq_error.1 h
    · exact (ih header.name after shorter failed).mono (one.trans onward)
    · contradiction

/-- Content that is not read to its end, by induction on the characters left. -/
theorem faulty_of_content {name : String} {cur : Cursor}
    (h : plain (content .strict cut name cur) = .error fault) : Faulty cut cur fault := by
  induction size : cur.rest.length using Nat.strongRecOn generalizing name cur with
  | ind n ih =>
    subst size
    rw [plain_content] at h
    obtain failed | ⟨⟨segments, after⟩, taken, h⟩ := bind_eq_error.1 h
    · exact Content.faulty_of_read failed
    obtain failed | ⟨nodes, -, h⟩ := bind_eq_error.1 h
    · exact faulty_of_textAndCode taken failed
    have reached := Content.reaches_read taken
    have size := reached.length_le
    dsimp only at h
    split at h
    · next ended =>
      cases h
      exact .here after reached rfl ended
    next more =>
    have begins := Content.tagBegins_of_read taken more
    split at h
    · next slash =>
      obtain ⟨space, rest, blank, parts, whole, unended⟩ := closing_parts more begins slash
      split at h
      · next open' =>
        cases h
        exact .here after reached rfl (.inr ⟨⟨_, rfl⟩, ⟨_, parts⟩, unended open'.2⟩)
      split at h
      · obtain failed | ⟨inside, -, h⟩ := bind_eq_error.1 h
        · have shorter := (closing after more).after.2
          exact (ih _ (by omega) failed rfl).mono (reached.trans (reaches_closing more))
        · contradiction
      split at h
      · cases h
        exact .here after reached rfl ⟨space, rest, blank, parts, whole⟩
      · contradiction
    · obtain failed | ⟨⟨child, next⟩, child_read, h⟩ := bind_eq_error.1 h
      · exact (faulty_of_element more (Content.peek?_of_tagBegins begins)
          (fun name later shorter failed => ih _ (by omega) failed rfl) failed).mono reached
      obtain failed | ⟨inside, -, h⟩ := bind_eq_error.1 h
      · have shorter := bound_of_plain child_read
        have onward := (Cursor.reaches_next after).trans (reaches_element more child_read)
        exact (ih next.rest.length (by omega) failed rfl).mono (reached.trans onward)
      · contradiction

end Descent

namespace Fragment

variable {cut : String → Except Error (List Piece)} {cur : Cursor} {fault : Error}

theorem faulty_of_readRoot (start : Host.MarkupStart cur.rest)
    (h : readRoot ⟨.plain, .strict, cut⟩ cur = .error fault) : Faulty cut cur fault := by
  have more := Descent.rest_ne_nil_of_start start
  obtain ⟨c, rest, begins, -⟩ := start
  have opens : cur.peek? = some '<' := by rw [Cursor.peek?, begins]; rfl
  rw [Descent.readRoot_eq_element .strict cut cur more] at h
  obtain failed | ⟨element, -, h⟩ := bind_eq_error.1 h
  · exact Descent.faulty_of_element more opens (fun _ _ _ => Descent.faulty_of_content) failed
  · contradiction

/-- The search for a fragment. -/
theorem faulty_of_nextWith (h : nextWith ⟨.plain, .strict, cut⟩ cur = .error fault) :
    Faulty cut cur fault := by
  fun_induction nextWith ⟨.plain, .strict, cut⟩ cur with
  | case1 => contradiction
  | case2 cur start found failure failed =>
    cases h
    obtain ⟨ahead, begins⟩ := Host.seek_sound found
    exact (faulty_of_readRoot begins failed).mono ahead
  | case3 => contradiction
  | case4 cur start found stop read ih =>
    have ahead := (Host.seek_sound found).1
    exact (ih h).mono (ahead.trans (Cursor.reaches_next start))

/-- Code cut into pieces. -/
theorem faulty_of_splitWith (h : splitWith ⟨.plain, .strict, cut⟩ cur = .error fault) :
    Faulty cut cur fault := by
  fun_induction splitWith ⟨.plain, .strict, cut⟩ cur with
  | case1 cur failure failed =>
    cases h
    exact faulty_of_nextWith failed
  | case2 => contradiction
  | case3 cur fragment found ih =>
    obtain failed | ⟨following, -, h⟩ := bind_eq_error.1 h
    · obtain ⟨ahead, -, beyond, -⟩ := nextWith_sound found
      exact (ih failed).mono ((ahead.trans (Cursor.reaches_next _)).trans beyond)
    · contradiction

end Fragment

/-! ## Whole texts -/

/-- The code `inner` is read in braces while `text` is read. -/
def ReadWithin (text inner : List Char) : Prop :=
  ∃ cur, (Cursor.ofList text).Reaches cur ∧ CodeAt cur (String.ofList inner)

/-- A text reached from another one through code in braces. -/
def Within : List Char → List Char → Prop := Relation.ReflTransGen ReadWithin

/-- A cursor that a position leads to in a text, at the edge of a character and with the
line and the column that are counted there. -/
structure Position.LeadsTo (position : Position) (text : List Char) (place : Cursor) : Prop where
  atByte : Cursor.atByte text position.offset = place
  counted : place.position = position
  source : place.source = text
  boundary : Text.byteCount place.consumed = position.offset

theorem Cursor.Reaches.leadsTo {text : List Char} {place : Cursor}
    (reached : (Cursor.ofList text).Reaches place) : place.position.LeadsTo text place := by
  have counted : place.Counted := reached.counted rfl
  have whole : place.source = text := reached.source_eq
  exact ⟨whole ▸ Cursor.atByte_offset counted, rfl, whole, counted.offset_eq.symm⟩

/-- A fault shows at its place in a text. -/
def ShownIn (fault : Error) (text : List Char) : Prop :=
  ∃ place, (Cursor.ofList text).Reaches place ∧ fault.position? = some place.position ∧
    fault.Shows place

theorem ReadWithin.length_lt {text inner : List Char} (read : ReadWithin text inner) :
    inner.length < text.length := by
  obtain ⟨cur, reached, -, place, code, after, onward, opens, -, same⟩ := read
  have size := (reached.trans onward).length_le
  have trimmed := Text.length_trim_le code
  obtain rfl := String.ofList_injective same
  rw [opens] at size
  simp only [List.length_cons, List.length_append, Cursor.ofList] at size
  omega

namespace Cursor

theorem blank_between_skipSpace (cur : Cursor) : Blank (cur.between cur.skipSpace) := by
  rw [skipSpace, between_advance, ← List.prefix_iff_eq_take.1 (List.takeWhile_prefix isSpace)]
  exact List.all_eq_true.1 List.all_takeWhile

theorem exists_of_not_atEnd_skipSpace {cur : Cursor} (more : cur.skipSpace.atEnd = false) :
    ∃ c, cur.skipSpace.peek? = some c ∧ isSpace c = false := by
  have first := any_head?_dropWhile isSpace cur.rest
  rw [atEnd, rest_skipSpace, Text.trimStart] at more
  rw [peek?, rest_skipSpace, Text.trimStart]
  cases left : cur.rest.dropWhile isSpace with
  | nil => rw [left] at more; contradiction
  | cons c rest => rw [left] at first; exact ⟨c, rfl, first⟩

end Cursor

namespace Fragment

variable {fault : Error}

theorem faulty_of_split {text : String} (h : split .plain .strict text = .error fault) :
    Faulty (split .plain .strict) (.ofList text.toList) fault := by
  rw [split_eq, reader] at h
  exact faulty_of_splitWith h

/-- A fault shows in the text that is read, or in code within it that cannot be cut into
pieces for the same reason, by induction on the length of the text. -/
theorem shownIn_of_faulty {text : List Char}
    (h : Faulty (split .plain .strict) (.ofList text) fault) :
    ∃ inner, Within text inner ∧
      (inner = text ∨ split .plain .strict (String.ofList inner) = .error fault) ∧
      ShownIn fault inner := by
  induction size : text.length using Nat.strongRecOn generalizing text with
  | ind n ih =>
    subst size
    cases h with
    | here place reached position shown =>
      exact ⟨text, .refl, .inl rfl, place, reached, position, shown⟩
    | inside code start reached taken failed =>
      have read : ReadWithin text code.toList := ⟨start, reached, by rwa [String.ofList_toList]⟩
      obtain ⟨inner, within, same, shown⟩ := ih _ read.length_lt (faulty_of_split failed) rfl
      refine ⟨inner, .head read within, .inr ?_, shown⟩
      obtain rfl | again := same
      · rwa [String.ofList_toList]
      · exact again

/-- A text with something after its fragment: the fragment ends before `place`, and there,
after nothing but white space, stands a character that is none. -/
def Trails (text : List Char) (place : Cursor) : Prop :=
  ∃ root stop, readRoot (reader .plain .strict) (Cursor.ofList text).skipSpace = .ok (root, stop) ∧
    stop.Reaches place ∧ Blank (stop.between place) ∧
    ∃ c, place.peek? = some c ∧ isSpace c = false

/-- A text that is not a single fragment.  Only that there is none has no place. -/
theorem faulty_of_parse {text : String} (h : parse .plain .strict text = .error fault) :
    fault = .noFragment ∨ Faulty (split .plain .strict) (.ofList text.toList) fault ∨
      ∃ place, (Cursor.ofList text.toList).Reaches place ∧
        fault = .trailingContent place.position ∧ Trails text.toList place := by
  have ahead := Cursor.reaches_skipSpace (Cursor.ofList text.toList)
  unfold parse at h
  dsimp only at h
  split at h
  · next start =>
    obtain failed | ⟨⟨root, stop⟩, read, h⟩ := bind_eq_error.1 h
    · exact .inr (.inl ((faulty_of_readRoot (markupStart_iff.1 start) failed).mono ahead))
    dsimp only at h
    split at h
    · next more =>
      cases h
      have onward := ahead.trans ((Cursor.reaches_next _).trans (reaches_readRoot read))
      refine .inr (.inr ⟨stop.skipSpace, onward.trans (Cursor.reaches_skipSpace stop), rfl,
        root, stop, read, Cursor.reaches_skipSpace stop, Cursor.blank_between_skipSpace stop, ?_⟩)
      exact Cursor.exists_of_not_atEnd_skipSpace (by simpa using more)
    · split at h
      · contradiction
      · cases h
        exact .inl rfl
  · split at h
    · next found begins =>
      cases h
      exact .inr (.inl (.here _ ahead rfl begins))
    · cases h
      exact .inl rfl

/-- **Faults point at what they name.**  The position is that of a place in the text that
is read, or in code in braces within it, where the fault shows; only what follows a fragment
is pointed at in the text itself alone. -/
theorem fault_points {text : String} {position : Position}
    (failed : parse .plain .strict text = .error fault ∨ split .plain .strict text = .error fault)
    (named : fault.position? = some position) :
    ∃ inner place, Within text.toList inner ∧ position.LeadsTo inner place ∧
      (inner = text.toList ∨ split .plain .strict (String.ofList inner) = .error fault) ∧
      (fault.Shows place ∨
        fault = .trailingContent position ∧ inner = text.toList ∧ Trails inner place) := by
  have inText (faulty : Faulty (split .plain .strict) (.ofList text.toList) fault) :
      ∃ inner place, Within text.toList inner ∧ position.LeadsTo inner place ∧
        (inner = text.toList ∨ split .plain .strict (String.ofList inner) = .error fault) ∧
        fault.Shows place := by
    obtain ⟨inner, within, same, place, reached, found, shown⟩ := shownIn_of_faulty faulty
    obtain rfl : place.position = position := Option.some.inj (found.symm.trans named)
    exact ⟨inner, place, within, reached.leadsTo, same, shown⟩
  obtain failed | failed := failed
  · obtain rfl | faulty | ⟨place, reached, rfl, trails⟩ := faulty_of_parse failed
    · contradiction
    · obtain ⟨inner, place, within, leads, same, shown⟩ := inText faulty
      exact ⟨inner, place, within, leads, same, .inl shown⟩
    · obtain rfl : place.position = position := Option.some.inj named
      exact ⟨_, place, .refl, reached.leadsTo, .inl rfl, .inr ⟨rfl, rfl, trails⟩⟩
  · obtain ⟨inner, place, within, leads, same, shown⟩ := inText (faulty_of_split failed)
    exact ⟨inner, place, within, leads, same, .inl shown⟩

/-- In an element in braces a closing tag has another name.  Its place is counted in the code
in braces, on the second line of the text. -/
theorem fault_points_braces :
    parse .plain .strict "<p>\n \x7b[<b></i>]\x7d</p>" =
        .error (.mismatchedClosingTag "b" "i" ⟨4, 1, 5⟩) ∧
      ∃ inner place, Within "<p>\n \x7b[<b></i>]\x7d</p>".toList inner ∧
        Position.LeadsTo ⟨4, 1, 5⟩ inner place ∧
        ∃ space after, Blank space ∧ place.rest = '<' :: '/' :: (space ++ 'i' :: after) := by
  have failed : parse .plain .strict "<p>\n \x7b[<b></i>]\x7d</p>" =
      .error (.mismatchedClosingTag "b" "i" ⟨4, 1, 5⟩) :=
    Outcome.eq_error_of_fault? (by decide +kernel)
  obtain ⟨inner, place, within, leads, -, shown | ⟨trailing, -⟩⟩ := fault_points (.inl failed) rfl
  · obtain ⟨space, after, blank, rest, -⟩ := shown
    exact ⟨failed, inner, place, within, leads, space, after, blank, rest⟩
  · contradiction

end Fragment

end InlineMarkup
