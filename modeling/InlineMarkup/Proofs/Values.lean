import InlineMarkup.Proofs.Endings
import InlineMarkup.Proofs.Indenting
import InlineMarkup.Proofs.Pointing
import InlineMarkup.Proofs.Recording
import InlineMarkup.Proofs.Replacing

/-!
# InlineMarkup.Proofs.Values

That an attribute of a tag has a value, in the tree and in what is written for it.

The value of an attribute is missing if it is code of nothing but comments and white space.
What is written for a value is never that, unless the value is such code: a string is quoted, a
flag is `true` or the name, and code that holds markup starts as it is written, up to a call in
the place of its first tag (`Render.isCommentOnly_nested`).  The last one is about the search
for markup, which passes over a comment as a whole (`Host.isCommentOnly_seekFrom`).

Code among the attributes of a header was read in braces (`Header.exists_braces`).  The braces
of content are left out if they hold nothing but comments; those of a header are not looked at.
`attribute_given` says so for all tags of an accepted fragment: the region of places that
reading comes to, in the text and in the code within it, is `ReadAt`.
-/

namespace InlineMarkup

open Outcome (bind_eq_ok)
open Unicode (isSpace)

/-! ## Comments before markup -/

namespace Text

/-- A reading stops at the same place, whatever follows it. -/
theorem dropPast_take_append {σ : Type} {read : σ → Char → Option σ} {state : σ} {text : List Char}
    {n : Nat} (h : extent read state text = some n) (rest : List Char) :
    dropPast read state (text.take n ++ rest) = rest := by
  have size : (text.take n).length = n := List.length_take_of_le (extent_bounds h).2
  rw [← List.take_append_drop n text] at h
  have taken := extent_append (extent_of_append h (by omega)) rest
  simp [dropPast, taken, size]

end Text

/-- White space in front of a text is passed over. -/
theorem isCommentOnly_space {c : Char} (space : isSpace c = true) (text : List Char) :
    isCommentOnly (c :: text) = isCommentOnly text := by
  have blank : Text.Blank [c] := List.forall_mem_singleton.2 space
  rw [isCommentOnly_eq, isCommentOnly_eq text, ← List.singleton_append, Text.trimStart_blank blank]

/-- A text is more than comments, if its first character is visible and begins none. -/
theorem isCommentOnly_visible {c : Char} {text : List Char} (visible : isSpace c = false)
    (none : afterComment? (c :: text) = none) : isCommentOnly (c :: text) = false := by
  have kept : Text.trimStart (c :: text) = c :: text := by simp [Text.trimStart, visible]
  rw [isCommentOnly_eq, kept, none]
  rfl

theorem isCommentOnly_comment {text rest : List Char}
    (found : afterComment? ('/' :: text) = some rest) :
    isCommentOnly ('/' :: text) = isCommentOnly rest := by
  have kept : Text.trimStart ('/' :: text) = '/' :: text := rfl
  rw [isCommentOnly_eq, kept, found]

theorem afterComment?_eq_none {c : Char} {text : List Char}
    (other : c = '/' → text.head? ≠ some '/' ∧ text.head? ≠ some '*') :
    afterComment? (c :: text) = none := by
  unfold afterComment?
  split
  · next rest same => simp_all
  · next rest same => simp_all
  · rfl

namespace Cursor

theorem between_cons_cons {cur later : Cursor} {c d : Char} {rest : List Char}
    (begins : cur.rest = c :: d :: rest) (ahead : (cur.advance 2).Reaches later) :
    cur.between later = c :: d :: (cur.advance 2).between later := by
  rw [← next_advance 1] at ahead ⊢
  rw [between_cons begins ((reaches_next _).trans ahead), between_cons (rest_next begins) ahead]
  rfl

/-- A reading that ended also ends there in front of another text. -/
theorem dropPast_between {σ : Type} {cur : Cursor} {reader : σ → Char → Option σ} {state : σ}
    (ended : (cur.read reader state).ended = true) (rest : List Char) :
    Text.dropPast reader state (cur.between (cur.read reader state).cursor ++ rest) = rest := by
  cases found : Text.extent reader state cur.rest with
  | none => simp [Cursor.read, found] at ended
  | some n =>
    have stop : (cur.read reader state).cursor = cur.advance n := by simp [Cursor.read, found]
    rw [stop, between_advance, Text.dropPast_take_append found]

theorem ended_of_rest {σ : Type} {cur : Cursor} {reader : σ → Char → Option σ} {state : σ}
    (more : (cur.read reader state).cursor.rest ≠ []) : (cur.read reader state).ended = true := by
  cases found : Text.extent reader state cur.rest with
  | none => simp [Cursor.read, found, Cursor.toEnd] at more
  | some n => simp [Cursor.read, found]

end Cursor

namespace Host

/-- What stands before markup, and whatever takes its place, is more than comments: a comment
is passed over as a whole. -/
theorem isCommentOnly_seekFrom {context : Context} {cur start : Cursor}
    (h : seekFrom context cur = some start) {c : Char} (named : Name.isStart c = true)
    (rest : List Char) : isCommentOnly (cur.between start ++ c :: rest) = false := by
  obtain ⟨visible, notSlash, -⟩ := Name.plain_of_isStart named
  have notStar : c ≠ '*' := by rintro rfl; revert named; decide +kernel
  have more {context : Context} {cur : Cursor} (h : seekFrom context cur = some start) :
      cur.rest ≠ [] := by
    intro ended
    rw [seekFrom_nil context ended] at h
    contradiction
  -- A quote or another visible character settles it; white space and comments are passed over
  -- by both, and for comments the end has to be seen, since markup follows.
  fun_induction seekFrom context cur with
  | case1 => contradiction
  | case2 context cur d following begins quote ih =>
    have ahead := (Cursor.reaches_read _ _ _).trans (seekFrom_sound h).1
    have shown : isSpace d = false ∧ d ≠ '/' := IsQuote.visible (by simp only [IsQuote]; tauto)
    rw [Cursor.between_cons begins ahead]
    exact isCommentOnly_visible shown.1 (afterComment?_eq_none fun slash => absurd slash shown.2)
  | case3 context cur d following begins _ slashes ih =>
    obtain ⟨rfl, second⟩ := slashes
    obtain ⟨body, rfl⟩ := List.head?_eq_some_iff.1 second
    have ahead := (seekFrom_sound h).1
    have follows := Cursor.rest_next begins
    have two : cur.next.next = cur.advance 2 := Cursor.next_advance 1 cur
    have inside := Cursor.reaches_readPast_next follows (by decide : '/' ≠ '\n')
    have passed := Cursor.dropPast_between (Cursor.ended_of_rest (more h))
      ((cur.next.readPast '\n' none).cursor.between start ++ c :: rest)
    rw [← Cursor.readPast, Cursor.between_cons follows inside, two, List.cons_append,
      Text.dropPast_cons (by decide)] at passed
    rw [two] at inside
    rw [Cursor.between_cons_cons begins (inside.trans ahead), ← inside.between_append ahead,
      List.cons_append, List.cons_append, List.append_assoc, isCommentOnly_comment rfl]
    exact (congrArg isCommentOnly passed).trans (ih h)
  | case4 context cur d following begins _ _ stars ih =>
    obtain ⟨rfl, second⟩ := stars
    obtain ⟨body, rfl⟩ := List.head?_eq_some_iff.1 second
    have ahead := (seekFrom_sound h).1
    have inside : (cur.advance 2).Reaches ((cur.advance 2).readPast '/' (some '*')).cursor :=
      Cursor.reaches_read _ _ _
    have passed := Cursor.dropPast_between (Cursor.ended_of_rest (more h))
      (((cur.advance 2).readPast '/' (some '*')).cursor.between start ++ c :: rest)
    rw [Cursor.between_cons_cons begins (inside.trans ahead), ← inside.between_append ahead,
      List.cons_append, List.cons_append, List.append_assoc, isCommentOnly_comment rfl]
    exact (congrArg isCommentOnly passed).trans (ih h)
  | case5 context cur d following begins _ _ _ opens =>
    obtain rfl := Option.some.inj h
    rw [show cur.between cur = [] from Cursor.between_advance 0 cur]
    exact isCommentOnly_visible visible (afterComment?_eq_none fun slash => absurd slash notSlash)
  | case6 context cur d following begins _ _ _ _ space ih =>
    have ahead := (seekFrom_sound h).1
    rw [Cursor.between_cons begins ahead, List.cons_append, isCommentOnly_space space]
    exact ih h
  | case7 context cur d following begins quote slashes stars opens space ih =>
    have ahead := (seekFrom_sound h).1
    rw [Cursor.between_cons begins ahead]
    refine isCommentOnly_visible (Bool.eq_false_iff.2 space) (afterComment?_eq_none fun slash => ?_)
    -- What follows the slash is the next character, or stands in the place of markup.
    have whole := ahead.between_append_rest
    rw [Cursor.rest_next begins] at whole
    cases first : cur.next.between start with
    | nil => simp [notSlash, notStar]
    | cons e more =>
      rw [first] at whole
      subst whole slash
      simp at slashes stars
      simp [slashes, stars]

end Host

/-! ## What is written for values -/

namespace Fragment

/-- The root of a fragment is a tag. -/
theorem exists_tag {mode : Mode} {cur stop : Cursor} {root : Node}
    (start : Host.MarkupStart cur.rest)
    (h : readRoot (reader .plain mode) cur = .ok (some root, stop)) :
    ∃ kind name attributes children selfClosing,
      root = .tag kind name attributes children selfClosing := by
  rw [reader, Descent.readRoot_eq_element mode _ _ (Descent.rest_ne_nil_of_start start),
    Descent.plain_element] at h
  obtain ⟨⟨node, after⟩, taken, same⟩ := bind_eq_ok.1 h
  cases same
  obtain ⟨⟨header, after⟩, -, taken⟩ := bind_eq_ok.1 taken
  obtain ⟨attributes, -, taken⟩ := bind_eq_ok.1 taken
  dsimp only at taken
  split at taken
  · cases taken
    exact ⟨_, _, _, _, _, rfl⟩
  · obtain ⟨inside, -, taken⟩ := bind_eq_ok.1 taken
    cases taken
    exact ⟨_, _, _, _, _, rfl⟩

/-- Code that holds markup is cut into what stands before the first tag, the tag, and more. -/
theorem exists_first {mode : Mode} {code : String} {pieces : List Piece}
    (holds : Host.containsMarkup code.toList = true) (h : split .plain mode code = .ok pieces) :
    ∃ start kind name attributes children selfClosing following,
      Host.seek (.ofList code.toList) = some start ∧
        pieces = codePieces ((Cursor.ofList code.toList).between start) ++
          .markup (.tag kind name attributes children selfClosing) :: following := by
  rw [split_eq, splitWith_eq] at h
  obtain ⟨found, sought, h⟩ := bind_eq_ok.1 h
  cases found with
  | none =>
    rw [Host.containsMarkup, seek_of_nextWith sought] at holds
    contradiction
  | some fragment =>
    obtain ⟨following, -, h⟩ := bind_eq_ok.1 h
    cases h
    obtain ⟨found, read⟩ := readRoot_of_nextWith sought
    obtain ⟨kind, name, attributes, children, selfClosing, root⟩ :=
      exists_tag (Host.seek_sound found).2 read
    exact ⟨fragment.start, kind, name, attributes, children, selfClosing, following, found,
      by rw [root]⟩

end Fragment

namespace Render

variable {config : Config} {depth : Nat}

theorem flatten_codePieces (code : List Char) :
    ((Fragment.codePieces code).map (pieceCode config depth)).flatten = code := by
  unfold Fragment.codePieces
  split
  · next empty => simp [List.isEmpty_iff.1 empty]
  · simp [pieceCode]

/-- What is written for code with markup starts as the code does, with a call in the place of
the first tag. -/
theorem isCommentOnly_nested (dotted : config.Dotted) {mode : Mode} {source : String}
    {pieces : List Piece} (holds : Host.containsMarkup source.toList = true)
    (h : Fragment.split .plain mode source = .ok pieces) (name : String) :
    isCommentOnly (valueCode config depth name (.nested source pieces)) = false := by
  obtain ⟨start, kind, tag, attributes, children, selfClosing, following, found, rfl⟩ :=
    Fragment.exists_first holds h
  obtain ⟨c, more, factory, named⟩ :=
    (Name.starts_of_isDotted (isDotted_factory dotted kind)).1
  rw [valueCode_nested, List.map_append, List.flatten_append, flatten_codePieces, List.map_cons,
    List.flatten_cons, pieceCode, code_tag, factory]
  exact Host.isCommentOnly_seekFrom found named _

theorem isCommentOnly_quoted (text : List Char) : isCommentOnly (Text.quoted text) = false :=
  isCommentOnly_visible (by decide) (afterComment?_eq_none fun slash => absurd slash (by decide))

theorem isCommentOnly_flag (name : String) :
    isCommentOnly (valueCode config depth name .flag) = false := by
  simp only [valueCode, value]
  split
  · decide +kernel
  · decide +kernel

theorem isCommentOnly_expression (name : String) {code : String}
    (given : isCommentOnly code.toList = false) :
    isCommentOnly (valueCode config depth name (.expression code)) = false := by
  simpa [valueCode, value] using isCommentOnly_trim given

end Render

/-! ## Where values come from -/

namespace Header

variable {mode : Mode} {scan next last : Scan} {c : Char} {cur after : Cursor} {header : Header}

/-- A property of entries is kept by a transition, if it holds of flags, of strings, and of the
code in braces that is read as the value of an attribute. -/
theorem forall_entries_step {P : String × AttrValue → Prop} (flag : ∀ name, P (name, .flag))
    (string : ∀ name text, P (name, .string text))
    (expression : ∀ name, scan.phase = .beforeValue name → c = '\x7b' →
      P (name, .expression (Group.read scan.cursor).trimmed))
    (given : ∀ entry ∈ scan.attributes, P entry) (h : step mode scan c = .ok next) :
    ∀ entry ∈ next.attributes, P entry := by
  have insert {name : String} {value : AttrValue} (new : P (name, value)) :
      ∀ entry ∈ scan.attributes.insert name value, P entry :=
    Attributes.forall_insert given new
  cases phase : scan.phase with
  | tagName | beforeName | slash | done =>
    simp only [step, phase] at h
    repeat' split at h
    all_goals first
      | cases h; exact given
      | cases ok_of_refuse h; exact given
  | name pending | afterName pending =>
    simp only [step, phase] at h
    repeat' split at h
    all_goals cases h
    all_goals first
      | exact given
      | exact insert (flag _)
  | quoted quote pending value | unquoted pending value =>
    simp only [step, phase] at h
    repeat' split at h
    all_goals cases h
    all_goals first
      | exact given
      | exact insert (string _ _)
  | beforeValue pending =>
    simp only [step, phase] at h
    repeat' split at h
    · cases h; exact given
    · cases h; exact given
    · contradiction
    · next opens _ => cases h; exact insert (expression pending phase opens)
    · cases ok_of_refuse h; exact insert (string _ _)
    · cases ok_of_refuse h; exact insert (string _ _)
    · cases h; exact given

/-- Strict reading of the header at a cursor comes to braces as the value of an attribute. -/
structure BracesAt (cur : Cursor) (key : String) (scan : Scan) : Prop where
  comes : Loop.Passes (pass .strict cur.position) (.start cur) scan
  phase : scan.phase = .beforeValue key
  opens : scan.cursor.peek? = some '\x7b'

theorem exists_braces_of_passes
    (passes : Loop.Passes (pass .strict cur.position) (.start cur) last) :
    ∀ entry ∈ last.attributes, ∀ code, entry.2 = .expression code →
      ∃ scan, BracesAt cur entry.1 scan ∧ code = (Group.read scan.cursor).trimmed := by
  induction passes with
  | refl => simp [Scan.start]
  | @tail scan next passes made ih =>
    obtain ⟨-, c, rest, begins, taken⟩ := step_of_pass made
    refine forall_entries_step (by simp) (by simp) (fun name phase opens code same => ?_) ih taken
    cases same
    exact ⟨scan, ⟨passes, phase, by rw [Cursor.peek?, begins, opens]; rfl⟩, rfl⟩

/-- Code among the attributes of a header was read in braces. -/
theorem exists_braces (h : read .strict cur = .ok (header, after)) {key code : String}
    (mem : (key, .expression code) ∈ header.attributes) :
    ∃ scan, BracesAt cur key scan ∧ code = (Group.read scan.cursor).trimmed := by
  obtain ⟨last, passes, -, ⟨-, rfl⟩ | ⟨-, lenient, -⟩⟩ := exists_last h
  · exact exists_braces_of_passes passes _ mem code rfl
  · contradiction

end Header

/-! ## Trees -/

/-- A place that strict reading of a text comes to, in the text or in code within it. -/
def ReadAt (text : List Char) (cur : Cursor) : Prop :=
  ∃ inner, Within text inner ∧ (Cursor.ofList inner).Reaches cur

theorem region_readAt (text : List Char) : Fragment.Region .strict (ReadAt text) where
  onward := by
    rintro cur later ⟨inner, within, reached⟩ onward
    exact ⟨inner, within, reached.trans onward⟩
  value := by
    rintro cur after header key code ⟨inner, within, reached⟩ ⟨c, more, begins, -⟩ taken mem
    have here := Descent.codeAt_of_header (Cursor.previous?_next begins) taken mem
    refine ⟨code.toList, within.tail ⟨cur.next, reached.trans cur.reaches_next, ?_⟩, .refl _⟩
    rwa [String.ofList_toList]
  segment := by
    rintro cur after segments code ⟨inner, within, reached⟩ taken mem
    refine ⟨code.toList, within.tail ⟨cur, reached, ?_⟩, .refl _⟩
    rw [String.ofList_toList]
    exact Descent.codeAt_of_content taken mem

namespace Fragment

theorem expression_of_nestAttributes {reader : Reader} {given attributes : Attributes}
    (h : nestAttributes reader given = .ok attributes) {key code : String}
    (mem : (key, .expression code) ∈ attributes) : (key, .expression code) ∈ given := by
  obtain ⟨⟨name, written⟩, inside, same⟩ := Outcome.mem_mapM h _ mem
  obtain ⟨result, nested, same⟩ := bind_eq_ok.1 same
  cases same
  obtain ⟨rfl, -⟩ | ⟨_, _, _, _, _, cut⟩ := nestValue_cases nested
  · exact inside
  · cases cut

end Fragment

/-- A value with something to it: code that is more than comments, and so is whatever is
written for it. -/
structure AttrValue.Given (key : String) (value : AttrValue) : Prop where
  code : ∀ code, value = .expression code → code ≠ "" ∧ isCommentOnly code.toList = false
  written : ∀ config : Config, config.Dotted → ∀ depth,
    isCommentOnly (Id.run (Render.value Hooks.none config depth key value)).toList = false

/-- An attribute that is written with nothing but comments in its braces. -/
def WrittenEmpty (text : List Char) (key : String) (value : AttrValue) : Prop :=
  ∃ tag scan, ReadAt text tag ∧ Host.MarkupStart tag.rest ∧ Header.BracesAt tag.next key scan ∧
    isCommentOnly (Group.read scan.cursor).code = true ∧
      value = .expression (Group.read scan.cursor).trimmed

/-- What is made of a header has values, except for those that are written empty. -/
theorem Fragment.made_given (text : List Char) :
    Made .strict (ReadAt text) fun node => ∀ attributes, node.attributes? = some attributes →
      ∀ entry ∈ attributes, entry.2.Given entry.1 ∨ WrittenEmpty text entry.1 entry.2 where
  tag {cur after header attributes children} here start taken nested _ := by
    rintro _ ⟨⟩ ⟨key, value⟩ mem
    cases value with
    | string text =>
      exact .inl ⟨by simp, fun config dotted depth => by
        simpa [Render.value, Text.quote] using Render.isCommentOnly_quoted text.toList⟩
    | flag => exact .inl ⟨by simp, fun config dotted depth => Render.isCommentOnly_flag key⟩
    | nested source pieces =>
      obtain ⟨holds, cut, -⟩ := (value_of_header taken nested mem).2 source pieces rfl
      exact .inl ⟨by simp, fun config dotted depth =>
        Render.isCommentOnly_nested dotted holds cut key⟩
    | expression code =>
      obtain ⟨scan, braces, rfl⟩ :=
        Header.exists_braces taken (expression_of_nestAttributes nested mem)
      cases empty : isCommentOnly (Group.read scan.cursor).code with
      | true => exact .inr ⟨cur, scan, here, start, braces, empty, rfl⟩
      | false =>
        obtain ⟨some, -, given⟩ := Group.trimmed_sound empty
        refine .inl ⟨?_, fun config dotted depth => Render.isCommentOnly_expression key given⟩
        rintro _ ⟨⟩
        exact ⟨some, given⟩
  text _ _ _ _ _ := by simp [Node.attributes?]
  embedded _ _ := by simp [Node.attributes?]

/-- **Every attribute has a value** in a fragment that strict reading accepts, wherever its tag
stands, unless it is written with nothing but comments in its braces.  The tag may be the root,
stand among the children of another one, or in markup in the code of content or of a value. -/
theorem attribute_given {text : String} {root : Node}
    (h : Fragment.parse .plain .strict text = .ok root) {kind : TagKind} {name : String}
    {attributes : Attributes} {children : List Node} {selfClosing : Bool}
    (part : (Node.tag kind name attributes children selfClosing).PartOf root) {key : String}
    {value : AttrValue} (mem : (key, value) ∈ attributes) :
    value.Given key ∨ WrittenEmpty text.toList key value :=
  (Fragment.made_given text.toList).parseIn (region_readAt text.toList) ⟨_, .refl, .refl _⟩ h _ part
    attributes rfl _ mem

/-- An attribute of a tag in the code of another one. -/
theorem attribute_given_nested :
    ∃ root kind name attributes children selfClosing value,
      Fragment.parse .plain .strict "<p a=\x7bf(<i c=\x7b/* d */ x\x7d/>)\x7d></p>" = .ok root ∧
        (Node.tag kind name attributes children selfClosing).PartOf root ∧ name = "i" ∧
        ("c", value) ∈ attributes ∧ (value.Given "c" ∨
          WrittenEmpty "<p a=\x7bf(<i c=\x7b/* d */ x\x7d/>)\x7d></p>".toList "c" value) := by
  have tags : (Fragment.parse .plain .strict
      "<p a=\x7bf(<i c=\x7b/* d */ x\x7d/>)\x7d></p>").toOption.map (fun root =>
        (root.tags []).map fun place => (place.name, place.attributes.names)) =
      some [("p", ["a"]), ("i", ["c"])] := by
    decide +kernel
  obtain ⟨root, read, tags⟩ := Option.map_eq_some_iff.1 tags
  have read := Outcome.eq_ok_of_toOption read
  have inner : ("i", ["c"]) ∈
      (root.tags []).map fun place => (place.name, place.attributes.names) := by
    simp [tags]
  obtain ⟨place, mem, same⟩ := List.mem_map.1 inner
  obtain ⟨named, names⟩ := Prod.mk.inj same
  have key : "c" ∈ place.attributes.names := by simp [names]
  obtain ⟨⟨_, value⟩, entry, rfl⟩ := List.mem_map.1 key
  obtain ⟨around, -, stands⟩ := (root.mem_tags_iff []).1 mem
  exact ⟨root, _, place.name, _, _, _, value, read, stands.partOf, named, entry,
    attribute_given read stands.partOf entry⟩

/-- The code of a value. -/
def AttrValue.code? : AttrValue → Option String
  | .expression code => some code
  | .string _ | .flag | .nested _ _ => none

/-- Braces without code are accepted as a value, and nothing is written for it. -/
theorem attribute_empty :
    ∃ root attributes, Fragment.parse .plain .strict "<p a=\x7b\x7d></p>" = .ok root ∧
      root.attributes? = some attributes ∧ ("a", .expression "") ∈ attributes ∧
      root.render .standard = "h('p', \x7ba: \x7d)" := by
  have read : (Fragment.parse .plain .strict "<p a=\x7b\x7d></p>").toOption.map (fun root =>
      (root.attributes?.map (·.map fun entry => (entry.1, entry.2.code?)),
        root.render .standard)) = some (some [("a", some "")], "h('p', \x7ba: \x7d)") := by
    decide +kernel
  obtain ⟨root, read, same⟩ := Option.map_eq_some_iff.1 read
  obtain ⟨given, written⟩ := Prod.mk.inj same
  obtain ⟨attributes, own, entries⟩ := Option.map_eq_some_iff.1 given
  have inside : ("a", some "") ∈ attributes.map fun entry => (entry.1, entry.2.code?) := by
    simp [entries]
  obtain ⟨⟨key, value⟩, mem, same⟩ := List.mem_map.1 inside
  obtain ⟨rfl, code⟩ := Prod.mk.inj same
  cases value with
  | expression text =>
    cases code
    exact ⟨root, attributes, Outcome.eq_ok_of_toOption read, own, mem, written⟩
  | string | flag | nested => contradiction

end InlineMarkup
