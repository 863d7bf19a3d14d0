import InlineMarkup.Proofs.Equations

/-!
# InlineMarkup.Proofs.Nesting

Code inside a fragment is shorter than the text the fragment is read from.
Every expression a header or content gives is what stands between two braces of
the text, so a reading of `n` characters asks for code of less than `n` only.

* `Header.forall_values`, `Content.forall_segments`: the two places where code
  comes from, for any property of what is read there;
* `Header.shorter_of_read`, `Content.shorter_of_read`: how long it is;
* `Fragment.splitWith_congr`: readings that cut shorter code alike are alike;
* `Fragment.split_eq`: so `split` cuts all code by `split`, and its guard
  against code that is not shorter is never met.
-/

namespace InlineMarkup

open Outcome (ok_bind error_bind)

/-! ## Code in braces -/

namespace Group

/-- The braces at `place` are read as code between `first` and `last`.  Strict reading
asks that they are closed. -/
structure ReadIn (mode : Mode) (first last place : Cursor) : Prop where
  reached : first.Reaches place
  opens : place.peek? = some '\x7b'
  ends : (read place).cursor.Reaches last
  closed : mode = .strict → (read place).closed = true

namespace ReadIn

variable {mode : Mode} {first last place : Cursor}

theorem rest_eq (braces : ReadIn mode first last place) : ∃ more, place.rest = '\x7b' :: more :=
  List.head?_eq_some_iff.1 braces.opens

theorem rest_ne_nil (braces : ReadIn mode first last place) : place.rest ≠ [] := by
  obtain ⟨more, rest⟩ := braces.rest_eq
  rw [rest]
  exact List.cons_ne_nil _ _

end ReadIn

/-- What stands between the braces is shorter than the text they stand in. -/
theorem length_code_lt {cur : Cursor} (more : cur.rest ≠ []) :
    (read cur).code.length < cur.rest.length := by
  have one := Cursor.length_next_lt more
  have body : (read cur).code.length ≤ cur.next.rest.length := by
    simp only [read, Cursor.read]
    split
    · exact List.length_take_le' _ _
    · exact Nat.le_refl _
  omega

theorem length_trimmed_lt {cur : Cursor} (more : cur.rest ≠ []) :
    (read cur).trimmed.length < cur.rest.length := by
  have trimmed := Text.length_trim_le (read cur).code
  have code := length_code_lt more
  rw [Group.trimmed, String.length_ofList]
  omega

end Group

/-! ## Headers -/

/-- Whether the code of a value, if it is code, has less than `n` characters. -/
def AttrValue.Shorter (n : Nat) : AttrValue → Prop
  | .expression code => code.length < n
  | _ => True

/-- The same for all values. -/
def Attributes.Shorter (n : Nat) (attributes : Attributes) : Prop :=
  ∀ entry ∈ attributes, entry.2.Shorter n

theorem Attributes.Shorter.mono {m n : Nat} {attributes : Attributes} (given : attributes.Shorter m)
    (bound : m ≤ n) : attributes.Shorter n := by
  intro entry mem
  have code := given entry mem
  cases value : entry.2 with
  | expression text =>
    rw [value] at code
    exact Nat.lt_of_lt_of_le code bound
  | string | flag | nested => trivial

/-- An attribute is set, or stays as it was. -/
theorem Attributes.forall_insert {P : String × AttrValue → Prop} {name : String} {value : AttrValue}
    {given : Attributes} (old : ∀ entry ∈ given, P entry) (new : P (name, value)) :
    ∀ entry ∈ given.insert name value, P entry := by
  induction given with
  | nil => exact List.forall_mem_cons.2 ⟨new, old⟩
  | cons first rest ih =>
    obtain ⟨head, tail⟩ := List.forall_mem_cons.1 old
    unfold Attributes.insert
    split
    · next same =>
      subst same
      exact List.forall_mem_cons.2 ⟨new, tail⟩
    · exact List.forall_mem_cons.2 ⟨head, ih tail⟩

namespace Header

section

-- A property of values that flags, strings and code in braces further on have.
variable {P : AttrValue → Prop} {mode : Mode} {origin after : Cursor} (flag : P .flag)
  (string : ∀ text, P (.string text))
  (expression : ∀ {place : Cursor}, Group.ReadIn mode origin after place →
    P (.expression (Group.read place).trimmed))

include flag string

theorem forall_values_cutOff {scan : Scan} (given : ∀ entry ∈ scan.attributes, P entry.2) :
    ∀ entry ∈ cutOff scan, P entry.2 := by
  unfold cutOff
  split
  · exact Attributes.forall_insert given flag
  · exact Attributes.forall_insert given flag
  · exact Attributes.forall_insert given (string _)
  · exact Attributes.forall_insert given (string _)
  all_goals exact given

include expression

theorem forall_values_step {scan next : Scan} {c : Char}
    (given : ∀ entry ∈ scan.attributes, P entry.2) (reached : origin.Reaches scan.cursor)
    (more : scan.cursor.peek? = some c) (h : step mode scan c = .ok next)
    (ends : next.cursor.Reaches after) : ∀ entry ∈ next.attributes, P entry.2 := by
  cases move_of_step h with
  | shift | letter | close | skip | back | stay => exact given
  | commit name value inside simple =>
    obtain rfl | ⟨text, rfl⟩ := simple
    · exact Attributes.forall_insert given flag
    · exact Attributes.forall_insert given (string text)
  | commitShift name text => exact Attributes.forall_insert given (string text)
  | expression name opens closed =>
    subst opens
    exact Attributes.forall_insert given (expression ⟨reached, more, ends, closed⟩)

theorem forall_values_run {start : Position} {scan : Scan} {header : Header}
    (given : ∀ entry ∈ scan.attributes, P entry.2)
    (reached : origin.Reaches scan.cursor) (h : run mode start scan = .ok (header, after)) :
    ∀ entry ∈ header.attributes, P entry.2 := by
  fun_induction run mode start scan with
  | case1 scan done => cases h; exact given
  | case2 => contradiction
  | case3 scan unfinished ended => cases h; exact forall_values_cutOff flag string given
  | case4 => contradiction
  | case5 scan unfinished c rest more next taken ih =>
    have first : scan.cursor.peek? = some c := by rw [Cursor.peek?, more]; rfl
    exact ih (forall_values_step flag string expression given reached first taken (reaches_run h))
      (reached.trans (reaches_step taken)) h

/-- Every value of a header is a flag, a string, or the code of some braces. -/
theorem forall_values {header : Header} (h : read mode origin = .ok (header, after)) :
    ∀ entry ∈ header.attributes, P entry.2 :=
  forall_values_run flag string expression (fun _ mem => absurd mem List.not_mem_nil) (.refl _) h

end

/-- The code in a header is shorter than the text it is read from. -/
theorem shorter_of_read {mode : Mode} {cur after : Cursor} {header : Header}
    (h : read mode cur = .ok (header, after)) : header.attributes.Shorter cur.rest.length :=
  forall_values (P := AttrValue.Shorter cur.rest.length) trivial (fun _ => trivial)
    (fun braces => Nat.lt_of_lt_of_le (Group.length_trimmed_lt braces.rest_ne_nil)
      braces.reached.length_le) h

end Header

/-! ## Content -/

/-- Whether the code of a segment, if it is code, has less than `n`
characters. -/
def Segment.Shorter (n : Nat) : Segment → Prop
  | .expression code => code.length < n
  | .literal _ => True

theorem Segment.Shorter.mono {m n : Nat} {segment : Segment} (given : segment.Shorter m)
    (bound : m ≤ n) : segment.Shorter n := by
  cases segment with
  | expression text => exact Nat.lt_of_lt_of_le given bound
  | literal text => trivial

namespace Content

/-- A group begins with its brace. -/
theorem head?_of_lead {previous : Option Char} {rest : List Char} (h : lead previous rest = .group) :
    rest.head? = some '\x7b' := by
  unfold lead at h
  split at h
  · contradiction
  · repeat' split at h
    all_goals contradiction
  · rfl
  · repeat' split at h
    all_goals contradiction
  · contradiction

section

-- A property of segments that literal text has, and code in braces further on.
variable {P : Segment → Prop} {mode : Mode} {origin after : Cursor}
  (literal : ∀ {raw text : List Char}, raw ≠ [] → Literal.normalize raw = some text →
    P (.literal (String.ofList text)))
  (expression : ∀ {place : Cursor}, Group.ReadIn mode origin after place →
    isCommentOnly (Group.read place).code = false → P (.expression (Group.read place).trimmed))

include literal

theorem forall_flush {pending : List Char} {segments : List Segment}
    (given : ∀ segment ∈ segments, P segment) : ∀ segment ∈ flush pending segments, P segment := by
  unfold flush
  split
  · exact given
  · next some =>
    split
    · next text shown => exact List.forall_mem_cons.2 ⟨literal (by simpa using some) shown, given⟩
    · exact given

include expression

theorem forall_readFrom {pending : List Char} {segments result : List Segment} {cur : Cursor}
    (given : ∀ segment ∈ segments, P segment) (reached : origin.Reaches cur)
    (h : readFrom mode pending segments cur = .ok (result, after)) :
    ∀ segment ∈ result, P segment := by
  have one (cur : Cursor) := Cursor.reaches_next cur
  fun_induction readFrom mode pending segments cur with
  | case1 pending segments cur begins =>
    cases h
    exact fun segment mem => forall_flush literal given segment (List.mem_reverse.1 mem)
  | case2 pending segments cur begins ih =>
    exact ih given (reached.trans ((Cursor.Reaches.advance 4 cur).trans (Cursor.reaches_read _ _ _))) h
  | case3 pending segments cur begins ih =>
    exact ih given (reached.trans ((one cur).trans (Cursor.reaches_read _ _ _))) h
  | case4 => contradiction
  | case5 pending segments cur begins group closed flushed comment ih =>
    exact ih (forall_flush literal given)
      (reached.trans ((one cur).trans (Group.reaches_read cur))) h
  | case6 pending segments cur begins group closed flushed code ih =>
    have braces : Group.ReadIn mode origin after cur :=
      ⟨reached, head?_of_lead begins, reaches_readFrom h, fun strict => by simpa [strict] using closed⟩
    have new := expression braces (Bool.eq_false_iff.2 code)
    exact ih (List.forall_mem_cons.2 ⟨new, forall_flush literal given⟩)
      (reached.trans ((one cur).trans (Group.reaches_read cur))) h
  | case7 pending segments cur begins ih =>
    exact ih given (reached.trans ((Cursor.Reaches.advance 2 cur).trans (Cursor.reaches_read _ _ _))) h
  | case8 pending segments cur begins comment ih =>
    exact ih given (reached.trans ((one cur).trans (Cursor.reaches_read _ _ _))) h
  | case9 pending segments cur c begins ih => exact ih given (reached.trans (one cur)) h

/-- Every segment of content is literal text, or the code of some braces that is more
than comments. -/
theorem forall_segments {segments : List Segment} (h : read mode origin = .ok (segments, after)) :
    ∀ segment ∈ segments, P segment :=
  forall_readFrom literal expression (fun _ mem => absurd mem List.not_mem_nil) (.refl _) h

end

/-- The code in content is shorter than the text it is read from. -/
theorem shorter_of_read {mode : Mode} {cur after : Cursor} {segments : List Segment}
    (h : read mode cur = .ok (segments, after)) :
    ∀ segment ∈ segments, segment.Shorter cur.rest.length :=
  forall_segments (fun _ _ => trivial)
    (fun braces _ => Nat.lt_of_lt_of_le (Group.length_trimmed_lt braces.rest_ne_nil)
      braces.reached.length_le) h

end Content

/-! ## Fragments -/

namespace Fragment

section

variable {maker : NodeMaker} {mode : Mode} {cut cut' : String → Except Error (List Piece)}

theorem nestValue_congr {value : AttrValue}
    (same : ∀ code, value = .expression code → cut code = cut' code) :
    nestValue ⟨maker, mode, cut⟩ value = nestValue ⟨maker, mode, cut'⟩ value := by
  cases value with
  | expression code =>
    simp only [nestValue]
    rw [same code rfl]
  | string | flag | nested => rfl

theorem nestAttributes_congr {attributes : Attributes}
    (same : ∀ key code, (key, .expression code) ∈ attributes → cut code = cut' code) :
    nestAttributes ⟨maker, mode, cut⟩ attributes = nestAttributes ⟨maker, mode, cut'⟩ attributes := by
  unfold nestAttributes
  induction attributes with
  | nil => rfl
  | cons entry rest ih =>
    obtain ⟨key, value⟩ := entry
    have head : nestValue ⟨maker, mode, cut⟩ value = nestValue ⟨maker, mode, cut'⟩ value := by
      refine nestValue_congr ?_
      rintro code rfl
      exact same key code List.mem_cons_self
    rw [List.mapM_cons, List.mapM_cons,
      ih fun key code mem => same key code (List.mem_cons_of_mem _ mem), head]

theorem addSegments_congr {segments : List Segment} (run : List Segment) (assembly : Assembly)
    (same : ∀ code, .expression code ∈ segments → cut code = cut' code) :
    addSegments ⟨maker, mode, cut⟩ run assembly segments =
      addSegments ⟨maker, mode, cut'⟩ run assembly segments := by
  induction segments generalizing run assembly with
  | nil => rfl
  | cons segment rest ih =>
    have tail (code : String) (mem : .expression code ∈ rest) := same code (List.mem_cons_of_mem _ mem)
    cases segment with
    | literal text => exact ih _ _ tail
    | expression code =>
      simp only [addSegments]
      rw [same code List.mem_cons_self]
      simp only [ih _ _ tail]

end

section

-- Two ways of cutting code that agree on code of less than `n` characters.
variable {maker : NodeMaker} {mode : Mode} {cut cut' : String → Except Error (List Piece)} {n : Nat}
  (same : ∀ code, code.length < n → cut code = cut' code)

include same

theorem readOpening_congr (assembly : Assembly) {cur : Cursor} (size : cur.rest.length ≤ n) :
    readOpening ⟨maker, mode, cut⟩ assembly cur = readOpening ⟨maker, mode, cut'⟩ assembly cur := by
  rw [readOpening_eq, readOpening_eq]
  cases taken : Header.read mode cur.next with
  | error fault => rfl
  | ok read =>
    have ahead := (Cursor.reaches_next cur).length_le
    have shorter := (Header.shorter_of_read taken).mono (Nat.le_trans ahead size)
    simp only [ok_bind]
    rw [nestAttributes_congr fun key code mem => same code (shorter _ mem)]

omit same in
/-- Closing tags hold no code. -/
theorem readClosing_congr (assembly : Assembly) (cur : Cursor) :
    readClosing ⟨maker, mode, cut⟩ assembly cur = readClosing ⟨maker, mode, cut'⟩ assembly cur := rfl

theorem readTag_congr (assembly : Assembly) {cur : Cursor} (size : cur.rest.length ≤ n) :
    readTag ⟨maker, mode, cut⟩ assembly cur = readTag ⟨maker, mode, cut'⟩ assembly cur := by
  unfold readTag
  rw [readClosing_congr, readOpening_congr same assembly size]

/-- The loop over tags, by induction on its run. -/
theorem readOn_congr {turn : Turn} (size : turn.cursor.rest.length ≤ n) :
    readOn ⟨maker, mode, cut⟩ turn = readOn ⟨maker, mode, cut'⟩ turn := by
  have segments {cur after : Cursor} {segments : List Segment} (assembly : Assembly)
      (content : Content.read mode cur = .ok (segments, after)) (size : cur.rest.length ≤ n) :
      addSegments ⟨maker, mode, cut⟩ [] assembly segments =
        addSegments ⟨maker, mode, cut'⟩ [] assembly segments :=
    addSegments_congr [] assembly fun code mem =>
      same code ((Content.shorter_of_read content _ mem).mono size)
  fun_induction readOn ⟨maker, mode, cut⟩ turn with
  | case1 assembly cur => rw [readOn_false]
  | case2 assembly cur fault content => rw [readOn_true, content, error_bind]
  | case3 assembly cur found after content fault added =>
    rw [readOn_true, content, ok_bind, ← segments assembly content size, added, error_bind]
  | case4 assembly cur found after content grown added ended =>
    rw [readOn_true, content, ok_bind, ← segments assembly content size, added, ok_bind,
      if_pos ended]
  | case5 assembly cur found after content grown added more fault taken =>
    have ahead := (Content.reaches_read content).length_le
    rw [readOn_true, content, ok_bind, ← segments assembly content size, added, ok_bind,
      if_neg more, ← readTag_congr same grown (Nat.le_trans ahead size), taken, error_bind]
  | case6 assembly cur found after content grown added more turn taken ih =>
    have ahead := (Content.reaches_read content).length_le
    have beyond := ((Cursor.reaches_next after).trans (reaches_readTag taken)).length_le
    rw [readOn_true, content, ok_bind, ← segments assembly content size, added, ok_bind,
      if_neg more, ← readTag_congr same grown (Nat.le_trans ahead size), taken, ok_bind]
    exact ih (Nat.le_trans beyond (Nat.le_trans ahead size))

theorem readRoot_congr {cur : Cursor} (size : cur.rest.length ≤ n) :
    readRoot ⟨maker, mode, cut⟩ cur = readRoot ⟨maker, mode, cut'⟩ cur := by
  rw [readRoot_eq, readRoot_eq, ← readOpening_congr same .empty size]
  cases opened : readOpening ⟨maker, mode, cut⟩ .empty cur with
  | error fault => rfl
  | ok turn =>
    have ahead := ((Cursor.reaches_next cur).trans (reaches_readOpening opened)).length_le
    rw [ok_bind, ok_bind, readOn_congr same (Nat.le_trans ahead size)]

theorem nextWith_congr {cur : Cursor} (size : cur.rest.length ≤ n) :
    nextWith ⟨maker, mode, cut⟩ cur = nextWith ⟨maker, mode, cut'⟩ cur := by
  fun_induction nextWith ⟨maker, mode, cut⟩ cur with
  | case1 cur found => rw [nextWith_eq, found]
  | case2 cur start found fault failed =>
    have ahead := (Host.seek_sound found).1.length_le
    rw [nextWith_eq, found]
    dsimp only
    rw [← readRoot_congr same (Nat.le_trans ahead size), failed, error_bind]
  | case3 cur start found root stop read =>
    have ahead := (Host.seek_sound found).1.length_le
    rw [nextWith_eq, found]
    dsimp only
    rw [← readRoot_congr same (Nat.le_trans ahead size), read, ok_bind]
  | case4 cur start found stop read ih =>
    have ahead := (Host.seek_sound found).1.length_le
    have beyond := (Cursor.reaches_next start).length_le
    rw [nextWith_eq ⟨maker, mode, cut'⟩ cur, found]
    dsimp only
    rw [← readRoot_congr same (Nat.le_trans ahead size), read, ok_bind]
    exact ih (Nat.le_trans beyond (Nat.le_trans ahead size))

/-- Readings of a text that cut all shorter code alike are alike. -/
theorem splitWith_congr {cur : Cursor} (size : cur.rest.length ≤ n) :
    splitWith ⟨maker, mode, cut⟩ cur = splitWith ⟨maker, mode, cut'⟩ cur := by
  fun_induction splitWith ⟨maker, mode, cut⟩ cur with
  | case1 cur fault failed =>
    rw [splitWith_eq, ← nextWith_congr same size, failed, error_bind]
  | case2 cur found => rw [splitWith_eq, ← nextWith_congr same size, found, ok_bind]
  | case3 cur fragment found ih =>
    have ahead := length_nextWith found
    rw [splitWith_eq ⟨maker, mode, cut'⟩ cur, ← nextWith_congr same size, found, ok_bind,
      ih (by omega)]

end

/-- **Code is cut into pieces by reading its fragments in turn**, and the code
inside them is cut in the same way. -/
theorem split_eq (maker : NodeMaker) (mode : Mode) (code : String) :
    split maker mode code = splitWith (reader maker mode) (.ofList code.toList) := by
  have size : (Cursor.ofList code.toList).rest.length ≤ code.length :=
    Nat.le_of_eq String.length_toList
  rw [split, reader]
  refine splitWith_congr ?_ size
  intro inner shorter
  exact dif_pos shorter

end Fragment

end InlineMarkup
