import InlineMarkup.Proofs.Passes

/-!
# InlineMarkup.Proofs.Progress

Reading comes to an end because it gets on.  No loop makes more passes than the text allows;
and where the readers call each other, on code in braces, that code is shorter than the
fragment it stands in (`Fragment.readRoot_within`).  So reading with bounds, on the passes
of each loop and on how deep code stands in code, is reading (`Fragment.nested_eq`).  All
of it is put together in `reading_gets_on`.
-/

namespace InlineMarkup

open Outcome (bind_eq_ok ok_bind)

/-! ## Code inside fragments -/

namespace Cursor

/-- What a reader read is no longer than the way it went. -/
theorem byteCount_read_le {σ : Type} (cur : Cursor) (reader : σ → Char → Option σ) (state : σ) :
    cur.position.offset + Text.byteCount (cur.read reader state).text ≤
      (cur.read reader state).cursor.position.offset := by
  unfold read
  split
  · next n ended =>
    have part : Text.byteCount (cur.rest.take (n - 1)) ≤ Text.byteCount (cur.rest.take n) := by
      obtain ⟨last, rest⟩ : (cur.rest.take (n - 1)) <+: (cur.rest.take n) :=
        List.take_prefix_take_left (by omega)
      rw [← rest, Text.byteCount_append]
      omega
    simp only [offset_advance]
    omega
  · simp only [toEnd, offset_advance, List.take_length]
    omega

end Cursor

theorem Text.byteCount_trim_le (text : List Char) : byteCount (trim text) ≤ byteCount text := by
  obtain ⟨left, right, -, -, whole⟩ := exists_blank_trim text
  have size := congrArg byteCount whole
  rw [byteCount_append, byteCount_append] at size
  omega

/-- The code of braces has fewer bytes than any text that they were read in. -/
theorem Group.ReadIn.byteCount_lt {mode : Mode} {first last place : Cursor}
    (braces : ReadIn mode first last place) :
    Text.byteCount (read place).trimmed.toList < last.position.offset - first.position.offset := by
  have before := braces.reached.offset_le
  have brace := Cursor.offset_lt_of_next braces.rest_ne_nil (.refl place.next)
  have inside := Cursor.byteCount_read_le place.next Text.readGroup 0
  have after := braces.ends.offset_le
  have trimmed := Text.byteCount_trim_le (place.next.read Text.readGroup 0).text
  rw [Group.trimmed, String.toList_ofList]
  change (place.next.read Text.readGroup 0).cursor.position.offset ≤ _ at after
  change Text.byteCount (Text.trim (place.next.read Text.readGroup 0).text) < _
  omega

namespace Fragment

/-- Two ways of cutting code that agree on all code with fewer bytes than there are between
two places. -/
def Alike (cut cut' : String → Except Error (List Piece)) (first last : Cursor) : Prop :=
  ∀ code : String, Text.byteCount code.toList < last.position.offset - first.position.offset →
    cut code = cut' code

section

variable {maker : NodeMaker} {mode : Mode} {cut cut' : String → Except Error (List Piece)}
  {first last : Cursor}

theorem Alike.mono {inner outer : Cursor} (alike : Alike cut cut' first last)
    (before : first.Reaches inner) (after : outer.Reaches last) : Alike cut cut' inner outer := by
  have := before.offset_le
  have := after.offset_le
  exact fun code fewer => alike code (by omega)

/-- All code that an opening tag asks to be cut is shorter than the tag. -/
theorem readOpening_within {assembly : Assembly} {cur : Cursor} {turn : Turn}
    (alike : Alike cut cut' cur turn.cursor)
    (h : readOpening ⟨maker, mode, cut⟩ assembly cur = .ok turn) :
    readOpening ⟨maker, mode, cut'⟩ assembly cur = .ok turn := by
  rw [readOpening_eq] at h ⊢
  obtain ⟨⟨header, after⟩, taken, h⟩ := bind_eq_ok.1 h
  obtain ⟨attributes, nested, h⟩ := bind_eq_ok.1 h
  cases h
  have shorter : ∀ entry ∈ header.attributes, ∀ code, entry.2 = .expression code →
      cut code = cut' code := by
    refine Header.forall_values
      (P := fun value => ∀ code, value = .expression code → cut code = cut' code)
      (by simp) (by simp) ?_ taken
    rintro place braces code same
    cases same
    exact alike.mono (Cursor.reaches_next cur) (.refl _) _ braces.byteCount_lt
  rw [taken, ok_bind, ← nestAttributes_congr fun key code mem => shorter _ mem code rfl, nested]
  rfl

theorem readTag_within {assembly : Assembly} {cur : Cursor} {turn : Turn}
    (alike : Alike cut cut' cur turn.cursor)
    (h : readTag ⟨maker, mode, cut⟩ assembly cur = .ok turn) :
    readTag ⟨maker, mode, cut'⟩ assembly cur = .ok turn := by
  unfold readTag at h ⊢
  split at h
  · next closing =>
    rw [if_pos closing]
    exact h
  · next opening =>
    rw [if_neg opening]
    exact readOpening_within alike h

/-- The loop over tags, by induction on its run. -/
theorem readOn_within {turn : Turn} {result : Assembly} (reached : first.Reaches turn.cursor)
    (alike : Alike cut cut' first last)
    (h : readOn ⟨maker, mode, cut⟩ turn = .ok (result, last)) :
    readOn ⟨maker, mode, cut'⟩ turn = .ok (result, last) := by
  have segments {cur after : Cursor} {segments : List Segment} (assembly : Assembly)
      (content : Content.read mode cur = .ok (segments, after)) (before : first.Reaches cur)
      (ends : after.Reaches last) :
      addSegments ⟨maker, mode, cut⟩ [] assembly segments =
        addSegments ⟨maker, mode, cut'⟩ [] assembly segments := by
    have shorter : ∀ segment ∈ segments, ∀ code, segment = .expression code →
        cut code = cut' code := by
      refine Content.forall_segments
        (P := fun segment => ∀ code, segment = .expression code → cut code = cut' code)
        (by simp) ?_ content
      rintro place braces - code same
      cases same
      exact alike.mono before ends _ braces.byteCount_lt
    exact addSegments_congr [] assembly fun code mem => shorter _ mem code rfl
  fun_induction readOn ⟨maker, mode, cut⟩ turn with
  | case1 assembly cur =>
    cases h
    rw [readOn_false]
  | case2 => contradiction
  | case3 => contradiction
  | case4 assembly cur found after content grown added ended =>
    cases h
    rw [readOn_true, content, ok_bind, ← segments assembly content reached (.refl _), added,
      ok_bind, if_pos ended]
  | case5 => contradiction
  | case6 assembly cur found after content grown added more turn taken ih =>
    have before := reached.trans (Content.reaches_read content)
    have onward := (Cursor.reaches_next after).trans (reaches_readTag taken)
    have ends := reaches_readOn h
    rw [readOn_true, content, ok_bind,
      ← segments assembly content reached (onward.trans ends), added, ok_bind, if_neg more,
      readTag_within (alike.mono before ends) taken, ok_bind]
    exact ih (before.trans onward) h

/-- **Code inside a fragment is shorter than the fragment**: what comes of a fragment
depends on how code is cut only for code with fewer bytes than the fragment has. -/
theorem readRoot_within {root : Option Node} (alike : Alike cut cut' first last)
    (h : readRoot ⟨maker, mode, cut⟩ first = .ok (root, last)) :
    readRoot ⟨maker, mode, cut'⟩ first = .ok (root, last) := by
  rw [readRoot_eq] at h ⊢
  obtain ⟨turn, opened, h⟩ := bind_eq_ok.1 h
  obtain ⟨⟨assembly, after⟩, read, concluded⟩ := bind_eq_ok.1 h
  have same : after = last := by
    unfold conclude at concluded
    split at concluded
    · contradiction
    · cases concluded; rfl
  subst same
  have before := (Cursor.reaches_next first).trans (reaches_readOpening opened)
  rw [readOpening_within (alike.mono (.refl _) (reaches_readOn read)) opened, ok_bind,
    readOn_within before alike read, ok_bind]
  exact concluded

end

/-! ## Bounded reading -/

/-- Code cut into pieces with a bound on how deep fragments nest, and with a pass for each
character of the code, and one more, at each level.  Where that is not enough, the fault
is `spent`. -/
def nested (maker : NodeMaker) (mode : Mode) (spent : Error) :
    Nat → String → Except Error (List Piece)
  | 0, _ => .error spent
  | levels + 1, code =>
    (Loop.run (splitPass ⟨maker, mode, nested maker mode spent levels⟩) (code.length + 1)
      ([], .ofList code.toList)).getD (.error spent)

/-- It is enough, for code inside code is shorter. -/
theorem nested_eq (maker : NodeMaker) (mode : Mode) (spent : Error) {levels : Nat} {code : String}
    (enough : code.length < levels) :
    nested maker mode spent levels code = split maker mode code := by
  induction levels generalizing code with
  | zero => omega
  | succ levels ih =>
    have size : (Cursor.ofList code.toList).rest.length = code.length := String.length_toList
    rw [nested, loop_eq_splitWith _ _ (by omega), Option.getD_some, split_eq, reader]
    refine splitWith_congr (n := code.length) (fun inner shorter => ?_) (Nat.le_of_eq size)
    exact ih (by omega)

-- Two fragments, one in the code of the other, take two levels.
example : (nested .plain .strict .noFragment 2 "<p>\x7b<b/>\x7d</p>").toBool = true ∧
    (nested .plain .strict .noFragment 1 "<p>\x7b<b/>\x7d</p>").toBool = false := by
  decide +kernel

/-- A fragment read with as many levels as there are characters left, and with two passes
for each of them, and one more. -/
def boundedRoot (maker : NodeMaker) (mode : Mode) (spent : Error) (cur : Cursor) :
    Except Error (Option Node × Cursor) :=
  (Loop.run (pass ⟨maker, mode, nested maker mode spent cur.rest.length⟩) (2 * cur.rest.length + 1)
    (.start cur)).getD (.error spent) >>= conclude mode

theorem boundedRoot_eq (maker : NodeMaker) (mode : Mode) (spent : Error) {cur : Cursor}
    (more : cur.rest ≠ []) :
    boundedRoot maker mode spent cur = readRoot (reader maker mode) cur := by
  have inner : readRoot ⟨maker, mode, nested maker mode spent cur.rest.length⟩ cur =
      readRoot (reader maker mode) cur :=
    readRoot_congr (fun code shorter => nested_eq maker mode spent shorter) (Nat.le_refl _)
  have loop := loop_eq_readRoot ⟨maker, mode, nested maker mode spent cur.rest.length⟩ more
    (Nat.le_refl _)
  obtain ⟨result, run, same⟩ := Option.map_eq_some_iff.1 loop
  rw [boundedRoot, run, ← inner, ← same, Option.getD_some]

/-- `parse` with the way that fragments are read left open. -/
def parseBy (root : Cursor → Except Error (Option Node × Cursor)) (mode : Mode) (text : String) :
    Except Error Node := do
  let cur := (Cursor.ofList text.toList).skipSpace
  if Content.tagBegins cur.rest ∧ cur.peekAt? 1 ≠ some '/' then
    let (root, after) ← root cur
    let tail := after.skipSpace
    if mode = .strict ∧ !tail.atEnd then .error (.trailingContent tail.position)
    else
      match root with
      | some node => .ok node
      | none => .error .noFragment
  else
    match mode, cur.peek? with
    | .strict, some found => .error (.unexpectedCharacter found cur.position)
    | _, _ => .error .noFragment

theorem parseBy_boundedRoot (maker : NodeMaker) (mode : Mode) (spent : Error) (text : String) :
    parseBy (boundedRoot maker mode spent) mode text = parse maker mode text := by
  unfold parseBy parse
  dsimp only
  split
  · next begins =>
    have more : (Cursor.ofList text.toList).skipSpace.rest ≠ [] := by
      intro ended
      rw [ended] at begins
      exact Bool.noConfusion begins.1
    exact congrArg (· >>= _) (boundedRoot_eq maker mode spent more)
  · rfl

end Fragment

/-- `translate` with bounds. -/
def Translator.boundedTranslate (translator : Translator) (spent : Error) (config : Config)
    (source : String) : Except Error String := do
  let config := config.resolve source
  let pieces ← Fragment.nested translator.maker config.mode spent (source.length + 1) source
  return String.join (pieces.map (translator.writePiece config))

theorem Translator.boundedTranslate_eq (translator : Translator) (spent : Error) (config : Config)
    (source : String) :
    translator.boundedTranslate spent config source = translator.translate config source := by
  unfold boundedTranslate translate
  dsimp only
  rw [Fragment.nested_eq _ _ spent (Nat.lt_succ_self _)]

/-! ## Reading gets on -/

/-- How reading gets on, for one way of making nodes and one mode. -/
structure GetsOn (maker : NodeMaker) (mode : Mode) : Prop where
  /-- Code that a fragment has cut into pieces is shorter than the fragment: what comes of
  the fragment depends on `cut` for no other code. -/
  shorter {cut cut' : String → Except Error (List Piece)} {start stop : Cursor}
    {root : Option Node} :
    (∀ code : String, Text.byteCount code.toList < stop.position.offset - start.position.offset →
      cut code = cut' code) →
    Fragment.readRoot ⟨maker, mode, cut⟩ start = .ok (root, stop) →
    Fragment.readRoot ⟨maker, mode, cut'⟩ start = .ok (root, stop)
  /-- A fragment that is not read to an end has no code cut but what is shorter than the
  text that is left. -/
  shorterThanRest {cut cut' : String → Except Error (List Piece)} {start : Cursor} :
    (∀ code : String, code.length < start.rest.length → cut code = cut' code) →
    Fragment.readRoot ⟨maker, mode, cut⟩ start = Fragment.readRoot ⟨maker, mode, cut'⟩ start
  /-- Wherever a fragment comes to a tag, a character of the text is read at least, and
  content comes next, if anything. -/
  tag {cut : String → Except Error (List Piece)} {start : Cursor} {half : Fragment.Half} :
    start.rest ≠ [] → Loop.Passes (Fragment.pass ⟨maker, mode, cut⟩) (.start start) half →
    half.stage ≠ .content →
    (∀ next, Fragment.pass ⟨maker, mode, cut⟩ half = .inl next →
      next.stage = .content ∧ half.cursor.position.offset < next.cursor.position.offset) ∧
    ∀ result after, Fragment.pass ⟨maker, mode, cut⟩ half = .inr (.ok (result, after)) →
      half.cursor.position.offset < after.position.offset
  /-- Content is read once, and a tag comes next. -/
  content {cut : String → Except Error (List Piece)} {half next : Fragment.Half} :
    half.stage = .content → Fragment.pass ⟨maker, mode, cut⟩ half = .inl next →
    next.stage ≠ .content
  /-- Of two transitions in a header, one reads a character. -/
  header {start : Position} {scan next later : Header.Scan} :
    Header.pass mode start scan = .inl next → Header.pass mode start next = .inl later →
    scan.cursor.position.offset < later.cursor.position.offset
  /-- The search for a fragment goes on further in the text. -/
  search {cut : String → Except Error (List Piece)} {cur later : Cursor} :
    Fragment.nextPass ⟨maker, mode, cut⟩ cur = .inl later →
    cur.position.offset < later.position.offset
  /-- So does cutting code into pieces. -/
  split {cut : String → Except Error (List Piece)} {state next : List Piece × Cursor} :
    Fragment.splitPass ⟨maker, mode, cut⟩ state = .inl next →
    state.2.position.offset < next.2.position.offset

/-- How many passes the loops make at most, before a cursor with `size` characters left. -/
structure Bounded (maker : NodeMaker) (mode : Mode) (cur : Cursor) (size : Nat) : Prop where
  header : Loop.run (Header.pass mode cur.position) (2 * size + 2) (.start cur) =
    some (Header.read mode cur)
  content : Loop.run (Content.pass mode) (size + 1) ⟨[], [], cur⟩ = some (Content.read mode cur)
  host : Loop.run Host.pass (size + 1) (.empty, cur) = some (Host.seek cur)
  tags (cut : String → Except Error (List Piece)) : cur.rest ≠ [] →
    (Loop.run (Fragment.pass ⟨maker, mode, cut⟩) (2 * size + 1) (.start cur)).map
      (· >>= Fragment.conclude mode) = some (Fragment.readRoot ⟨maker, mode, cut⟩ cur)
  search (cut : String → Except Error (List Piece)) :
    Loop.run (Fragment.nextPass ⟨maker, mode, cut⟩) (size + 1) cur =
      some (Fragment.nextWith ⟨maker, mode, cut⟩ cur)
  split (cut : String → Except Error (List Piece)) :
    Loop.run (Fragment.splitPass ⟨maker, mode, cut⟩) (size + 1) ([], cur) =
      some (Fragment.splitWith ⟨maker, mode, cut⟩ cur)

namespace Fragment

theorem getsOn (maker : NodeMaker) (mode : Mode) : GetsOn maker mode where
  shorter := readRoot_within
  shorterThanRest same := readRoot_congr same (Nat.le_refl _)
  tag more passes stage := by
    have ahead := ahead_of_passes more passes stage
    obtain ⟨goesOn, ends⟩ := reads_of_tagPass stage
    refine ⟨fun next made => ?_, fun result after made => ?_⟩
    · obtain ⟨content, onward⟩ := goesOn next made
      exact ⟨content, Cursor.offset_lt_of_next ahead onward⟩
    · exact Cursor.offset_lt_of_next ahead (ends result after made)
  content stage made := (tag_of_contentPass stage made).1
  header := Header.offset_lt_of_passes
  search made := by
    obtain ⟨more, onward⟩ := reads_of_nextPass made
    exact Cursor.offset_lt_of_next more onward
  split made := (reads_of_splitPass made).2

theorem bounded (maker : NodeMaker) (mode : Mode) (cur : Cursor) :
    Bounded maker mode cur cur.rest.length where
  header := Header.loop_eq_read mode cur (Nat.le_refl _)
  content := Content.loop_eq_read mode cur (Nat.le_refl _)
  host := Host.loop_eq_seek cur (Nat.le_refl _)
  tags cut more := loop_eq_readRoot ⟨maker, mode, cut⟩ more (Nat.le_refl _)
  search cut := loop_eq_nextWith ⟨maker, mode, cut⟩ cur (Nat.le_refl _)
  split cut := loop_eq_splitWith ⟨maker, mode, cut⟩ cur (Nat.le_refl _)

end Fragment

/-- **Reading always gets on**, in both modes, however malformed the text and however nodes
are made.  So every loop is over after a number of passes that is linear in the text, and
with as many levels of code in code as the text has characters, and one more, nothing is
spent: a fragment and a whole source are read with bounds as they are without. -/
theorem reading_gets_on (translator : Translator) :
    (∀ mode : Mode, GetsOn translator.maker mode ∧
      ∀ cur : Cursor, Bounded translator.maker mode cur cur.rest.length) ∧
    ∀ (spent : Error) (source : String),
      (∀ mode : Mode,
        Fragment.parseBy (Fragment.boundedRoot translator.maker mode spent) mode source =
          Fragment.parse translator.maker mode source) ∧
      ∀ config : Config,
        translator.boundedTranslate spent config source = translator.translate config source :=
  ⟨fun mode => ⟨Fragment.getsOn _ mode, Fragment.bounded _ mode⟩, fun spent source =>
    ⟨fun mode => Fragment.parseBy_boundedRoot _ mode spent source,
      fun config => translator.boundedTranslate_eq spent config source⟩⟩

end InlineMarkup
