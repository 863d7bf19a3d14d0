import InlineMarkup.Proofs.Nesting
import InlineMarkup.Proofs.Reading

/-!
# InlineMarkup.Proofs.Faults

What strict reading finds at the place of a fault.  Each kind of fault shows something
there, which `Error.Shows` says; and reading from a cursor on fails at a place further on,
or in code that is read in braces further on (`Faulty`).  This is shown for each reader:

* `Header.faulty_of_read`: opening tags, by what a transition can fail with;
* `Content.faulty_of_read`: the text between tags, where only braces can be at fault;
* `Descent.closing_parts`: closing tags, by what they are made of;
* `Descent.faulty_of_nestAttributes`, `Descent.faulty_of_textAndCode`: code in braces.
-/

namespace InlineMarkup

open Outcome (bind_eq_error)
open Text (Blank Balanced)
open Unicode (isSpace)

/-! ## Braces -/

namespace Text

/-- Where the groups that are open are closed, the braces before that pair up apart from
them. -/
theorem opened_of_extent {text : List Char} {inner n : Nat}
    (h : extent readGroup inner text = some n) :
    ∃ code after, text = code ++ '\x7d' :: after ∧ n = code.length + 1 ∧
      inner + code.count '\x7b' = code.count '\x7d' ∧
      ∀ m, (code.take m).count '\x7d' ≤ inner + (code.take m).count '\x7b' := by
  induction text generalizing inner n with
  | nil => contradiction
  | cons c text ih =>
    rw [extent_cons] at h
    -- Unless the brace closes the innermost group, the rest is read with one group more, one
    -- less, or the same.
    have further {next : Nat} (goesOn : readGroup inner c = some next)
        (total : next + [c].count '\x7d' = inner + [c].count '\x7b')
        (never : [c].count '\x7d' ≤ inner + [c].count '\x7b') :
        ∃ code after, c :: text = code ++ '\x7d' :: after ∧ n = code.length + 1 ∧
          inner + code.count '\x7b' = code.count '\x7d' ∧
          ∀ m, (code.take m).count '\x7d' ≤ inner + (code.take m).count '\x7b' := by
      rw [goesOn] at h
      obtain ⟨m, found, rfl⟩ := Option.map_eq_some_iff.1 h
      obtain ⟨code, after, rfl, rfl, same, fewer⟩ := ih found
      refine ⟨c :: code, after, rfl, rfl, ?_, fun m => ?_⟩
      · rw [← List.singleton_append, List.count_append, List.count_append]
        omega
      · cases m with
        | zero => simp
        | succ m =>
          have := fewer m
          rw [List.take_succ_cons, ← List.singleton_append, List.count_append, List.count_append]
          omega
    by_cases left : c = '\x7b'
    · subst left
      exact further rfl (by simp) (by simp)
    by_cases right : c = '\x7d'
    · subst right
      cases inner with
      | zero =>
        obtain rfl := Option.some.inj h
        exact ⟨[], text, rfl, rfl, rfl, by simp⟩
      | succ inner => exact further rfl (by simp) (by simp)
    · have goesOn : readGroup inner c = some inner := by simp [readGroup, left, right]
      exact further goesOn (by simp [left, right]) (by simp [right])

/-- Braces that are closed hold code whose braces pair up. -/
theorem balanced_of_extent {text : List Char} {n : Nat} (h : extent readGroup 0 text = some n) :
    ∃ code after, text = code ++ '\x7d' :: after ∧ n = code.length + 1 ∧ Balanced code := by
  obtain ⟨code, after, whole, length, total, never⟩ := opened_of_extent h
  exact ⟨code, after, whole, length, by omega, fun m => by simpa using never m⟩

/-- Braces that are not closed hold no such code. -/
theorem unbalanced_of_extent {text code after : List Char}
    (h : extent readGroup 0 text = none) (balanced : Balanced code) :
    text ≠ code ++ '\x7d' :: after := by
  rintro rfl
  rw [extent_balanced balanced, extent_cons] at h
  contradiction

end Text

/-! ## What faults show -/

/-- Whether the name of a tag goes on with `c`. -/
def Name.isTagPart (c : Char) : Bool := !isSpace c && c != '/' && c != '>'

/-- Whether the name of a closing tag goes on with `c`. -/
def Name.isClosingPart (c : Char) : Bool := c != '>' && !isSpace c

/-- What a fault shows at its place.  No closing tag stands where nothing is open, and what
follows a fragment, or that there is none, is not for its readers to say. -/
def Error.Shows : Error → Cursor → Prop
  | unexpectedCharacter found _, cur => cur.peek? = some found
  | unbalancedBraces _, cur => ∃ more, cur.rest = '\x7b' :: more ∧
      ∀ code after, Balanced code → more ≠ code ++ '\x7d' :: after
  | unterminatedTag tag _, cur =>
      cur.previous? = some '<' ∧ tag.toList = cur.rest.takeWhile Name.isTagPart ∨
      (∃ name, tag = "/" ++ name) ∧ (∃ more, cur.rest = '<' :: '/' :: more) ∧ '>' ∉ cur.rest
  | mismatchedClosingTag _ found _, cur => ∃ space after, Blank space ∧
      cur.rest = '<' :: '/' :: (space ++ (found.toList ++ after)) ∧
      after.head?.any Name.isClosingPart = false
  | unclosedElement _ _, cur => cur.rest = []
  | unmatchedClosingTag _ _, _ | trailingContent _, _ | noFragment, _ => False

/-- Code stands in braces at a cursor or further on, white space around it apart. -/
def BracedAt (cur : Cursor) (inner : String) : Prop :=
  ∃ place code after, cur.Reaches place ∧ place.rest = '\x7b' :: (code ++ '\x7d' :: after) ∧
    Balanced code ∧ inner = String.ofList (Text.trim code)

/-- Code read in braces at a cursor or further on: as the value of an attribute in the tag
that starts there, or in the content there. -/
structure CodeAt (cur : Cursor) (inner : String) : Prop where
  read : (∃ header after name, cur.previous? = some '<' ∧
      Header.read .strict cur = .ok (header, after) ∧
        (name, .expression inner) ∈ header.attributes) ∨
    ∃ segments after, Content.read .strict cur = .ok (segments, after) ∧
      .expression inner ∈ segments
  braces : BracedAt cur inner

/-- How strict reading from a cursor on fails. -/
inductive Faulty (cut : String → Except Error (List Piece)) (first : Cursor) (fault : Error) : Prop
  /-- At a place further on. -/
  | here (place : Cursor) (reached : first.Reaches place)
      (position : fault.position? = some place.position) (shown : fault.Shows place)
  /-- In code further on. -/
  | inside (inner : String) (start : Cursor) (reached : first.Reaches start)
      (code : CodeAt start inner) (failed : cut inner = .error fault)

theorem Faulty.mono {cut : String → Except Error (List Piece)} {first later : Cursor}
    {fault : Error} (faulty : Faulty cut later fault) (reached : first.Reaches later) :
    Faulty cut first fault := by
  cases faulty with
  | here place onward position shown => exact .here place (reached.trans onward) position shown
  | inside inner start onward code failed =>
    exact .inside inner start (reached.trans onward) code failed

/-! ## Opening tags -/

namespace Header

variable {cut : String → Except Error (List Piece)} {scan : Scan} {c : Char} {rest : List Char}
  {fault : Error}

/-- What a transition can fail with: a character that has no meaning where it stands, or
braces that are not closed. -/
theorem fault_of_step (h : step .strict scan c = .error fault) :
    fault = .unexpectedCharacter c scan.cursor.position ∨
      c = '\x7b' ∧ (Group.read scan.cursor).closed = false ∧
        fault = .unbalancedBraces scan.cursor.position := by
  cases phase : scan.phase with
  | tagName | name | afterName | quoted | unquoted | done =>
    simp only [step, phase] at h
    repeat' split at h
    all_goals contradiction
  | beforeName | slash =>
    simp only [step, phase] at h
    repeat' split at h
    all_goals cases h
    exact .inl rfl
  | beforeValue name =>
    simp only [step, phase] at h
    repeat' split at h
    all_goals cases h
    · next opens unclosed => exact .inr ⟨opens, unclosed.1, rfl⟩
    · exact .inl rfl
    · exact .inl rfl

/-- At the end of the text a header that is not finished is at fault. -/
theorem run_nil_strict {start : Position} (unfinished : scan.phase ≠ .done)
    (ended : scan.cursor.rest = []) :
    run .strict start scan = .error (.unterminatedTag scan.tag start) := by
  rw [run.eq_def, dif_neg unfinished]
  split
  · rfl
  · next c rest more => rw [ended] at more; contradiction

/-- Once the name of the tag was read, it stays as it is. -/
theorem tag_of_step {next : Scan} (named : scan.phase ≠ .tagName)
    (h : step .strict scan c = .ok next) : next.phase ≠ .tagName ∧ next.tag = scan.tag := by
  cases move_of_step h with
  | shift phase ends other => exact ⟨other, rfl⟩
  | commitShift name text phase goesOn other => exact ⟨other, rfl⟩
  | letter inside => contradiction
  | close | commit | expression | skip | back => exact ⟨by simp [Scan.shift, Scan.commit], rfl⟩
  | stay => exact ⟨named, rfl⟩

/-- The fault of a group that is not closed. -/
theorem shows_unbalanced {cur : Cursor} (opens : cur.peek? = some '\x7b')
    (unclosed : (Group.read cur).closed = false) (position : Position) :
    (Error.unbalancedBraces position).Shows cur := by
  obtain ⟨more, rest⟩ := List.head?_eq_some_iff.1 opens
  have none : Text.extent Text.readGroup 0 more = none := by
    cases found : Text.extent Text.readGroup 0 more with
    | none => rfl
    | some n =>
      have closed : (Group.read cur).closed = true := by
        simp [Group.read, Cursor.read, Cursor.rest_next rest, found]
      rw [closed] at unclosed
      contradiction
  exact ⟨more, rest, fun code after => Text.unbalanced_of_extent none⟩

/-- After the name of the tag, by induction on the run. -/
theorem faulty_of_run {cur : Cursor} (previous : cur.previous? = some '<')
    (named : scan.phase ≠ .tagName) (tag : scan.tag.toList = cur.rest.takeWhile Name.isTagPart)
    (reached : cur.Reaches scan.cursor) (h : run .strict cur.position scan = .error fault) :
    Faulty cut cur fault := by
  fun_induction run .strict cur.position scan with
  | case1 => contradiction
  | case2 scan unfinished ended =>
    cases h
    exact .here cur (.refl cur) rfl (.inl ⟨previous, tag⟩)
  | case3 => contradiction
  | case4 scan unfinished c rest more failed taken =>
    cases h
    have here : scan.cursor.peek? = some c := by rw [Cursor.peek?, more]; rfl
    obtain rfl | ⟨rfl, unclosed, rfl⟩ := fault_of_step taken
    · exact .here scan.cursor reached rfl here
    · exact .here scan.cursor reached rfl (shows_unbalanced here unclosed _)
  | case5 scan unfinished c rest more next taken ih =>
    obtain ⟨other, same⟩ := tag_of_step named taken
    exact ih other (by rw [same, tag]) (reached.trans (reaches_step taken)) h

/-- The name of the tag ends at a character that it cannot go on with. -/
theorem shift_of_tagName {α : Type} {goOn : Scan → Except Error α} {read : Except Error α}
    (h : (step .strict scan c >>= goOn) = read) (named : scan.phase = .tagName)
    (other : Name.isTagPart c = false) :
    ∃ phase, phase ≠ .tagName ∧ goOn (scan.shift phase) = read := by
  simp only [step, named] at h
  split at h
  · exact ⟨.done, by simp, h⟩
  split at h
  · exact ⟨.slash, by simp, h⟩
  split at h
  · exact ⟨.beforeName, by simp, h⟩
  · next notEnd notSlash visible => simp [Name.isTagPart, notEnd, notSlash, visible] at other

/-- Strict reading of an opening tag, after its `<`. -/
theorem faulty_of_read {cur : Cursor} (previous : cur.previous? = some '<')
    (h : read .strict cur = .error fault) : Faulty cut cur fault := by
  have plain : ∀ c ∈ cur.rest.takeWhile Name.isTagPart, isSpace c = false ∧ c ≠ '/' ∧ c ≠ '>' := by
    intro c mem
    have part := List.all_eq_true.1 List.all_takeWhile c mem
    simpa [Name.isTagPart, and_assoc] using part
  have whole : cur.rest = cur.rest.takeWhile Name.isTagPart ++ cur.rest.dropWhile Name.isTagPart :=
    List.takeWhile_append_dropWhile.symm
  have left := Cursor.rest_of_append whole
  have tag : (String.ofList (cur.rest.takeWhile Name.isTagPart)).toList =
      cur.rest.takeWhile Name.isTagPart := String.toList_ofList
  have reached := Cursor.Reaches.advance (cur.rest.takeWhile Name.isTagPart).length cur
  rw [read, Scan.start, run_tagName whole plain, String.empty_append] at h
  cases ending : cur.rest.dropWhile Name.isTagPart with
  | nil =>
    rw [ending] at left
    rw [run_nil_strict (by simp) left] at h
    cases h
    exact .here cur (.refl cur) rfl (.inl ⟨previous, tag⟩)
  | cons c more =>
    have other : Name.isTagPart c = false := by
      have first := any_head?_dropWhile Name.isTagPart cur.rest
      rwa [ending] at first
    rw [ending] at left
    rw [run_cons (by simp) left] at h
    obtain ⟨phase, named, h⟩ := shift_of_tagName h rfl other
    exact faulty_of_run previous named tag (reached.trans (Cursor.reaches_next _)) h

end Header

/-! ## Content -/

theorem Content.exists_of_tagBegins {rest : List Char} (begins : tagBegins rest = true) :
    ∃ c more, rest = '<' :: c :: more := by
  unfold tagBegins at begins
  split at begins
  · next c more => exact ⟨c, more, rfl⟩
  · contradiction

theorem Content.peek?_of_tagBegins {cur : Cursor} (begins : tagBegins cur.rest = true) :
    cur.peek? = some '<' := by
  obtain ⟨c, more, opens⟩ := exists_of_tagBegins begins
  rw [Cursor.peek?, opens]
  rfl

/-- Strict reading of content: only braces can be at fault. -/
theorem Content.faulty_of_read {cut : String → Except Error (List Piece)} {cur : Cursor}
    {fault : Error} (h : Content.read .strict cur = .error fault) : Faulty cut cur fault := by
  have along {pending : List Char} {segments : List Segment} {later : Cursor}
      (reached : cur.Reaches later) (h : readFrom .strict pending segments later = .error fault) :
      Faulty cut cur fault := by
    have one (later : Cursor) := Cursor.reaches_next later
    fun_induction readFrom .strict pending segments later with
    | case1 => contradiction
    | case2 pending segments later begins ih =>
      exact ih (reached.trans (later.reaches_advance_read 4 _ _)) h
    | case3 pending segments later begins ih =>
      exact ih (reached.trans (later.reaches_advance_read 1 _ _)) h
    | case4 pending segments later begins group unclosed =>
      cases h
      have opens := head?_of_lead begins
      exact .here later reached rfl (Header.shows_unbalanced opens unclosed.1 _)
    | case5 pending segments later begins group closed flushed comment ih =>
      exact ih (reached.trans ((one later).trans (Group.reaches_read later))) h
    | case6 pending segments later begins group closed flushed code ih =>
      exact ih (reached.trans ((one later).trans (Group.reaches_read later))) h
    | case7 pending segments later begins ih =>
      exact ih (reached.trans (later.reaches_advance_read 2 _ _)) h
    | case8 pending segments later begins comment ih =>
      exact ih (reached.trans (later.reaches_advance_read 1 _ _)) h
    | case9 pending segments later c begins ih => exact ih (reached.trans (one later)) h
  exact along (.refl cur) h

/-! ## Code in braces -/

/-- Braces that were read hold code whose braces pair up. -/
theorem Group.ReadIn.bracedAt {first last place : Cursor}
    (braces : Group.ReadIn .strict first last place) :
    BracedAt first (Group.read place).trimmed := by
  obtain ⟨more, rest⟩ := braces.rest_eq
  have closed := braces.closed rfl
  cases found : Text.extent Text.readGroup 0 more with
  | none => simp [Group.read, Cursor.read, Cursor.rest_next rest, found] at closed
  | some n =>
    obtain ⟨code, after, rfl, rfl, balanced⟩ := Text.balanced_of_extent found
    refine ⟨place, code, after, braces.reached, rest, balanced, ?_⟩
    simp [Group.trimmed, Group.read, Cursor.read, Cursor.rest_next rest, found]

namespace Descent

variable {cut : String → Except Error (List Piece)} {cur after : Cursor} {fault : Error}

theorem codeAt_of_header {header : Header} {name code : String} (previous : cur.previous? = some '<')
    (taken : Header.read .strict cur = .ok (header, after))
    (mem : (name, .expression code) ∈ header.attributes) : CodeAt cur code where
  read := .inl ⟨header, after, name, previous, taken, mem⟩
  braces := Header.forall_values
    (P := fun value => ∀ code, value = .expression code → BracedAt cur code) (by simp) (by simp)
    (fun braces code same => by cases same; exact braces.bracedAt) taken _ mem code rfl

theorem codeAt_of_content {segments : List Segment} {code : String}
    (taken : Content.read .strict cur = .ok (segments, after))
    (mem : .expression code ∈ segments) : CodeAt cur code where
  read := .inr ⟨segments, after, taken, mem⟩
  braces := Content.forall_segments
    (P := fun segment => ∀ code, segment = .expression code → BracedAt cur code) (by simp)
    (fun braces _ code same => by cases same; exact braces.bracedAt) taken _ mem code rfl

/-- The code in the attributes of a tag. -/
theorem faulty_of_nestAttributes {header : Header} (previous : cur.previous? = some '<')
    (taken : Header.read .strict cur = .ok (header, after))
    (h : Fragment.nestAttributes ⟨.plain, .strict, cut⟩ header.attributes = .error fault) :
    Faulty cut cur fault := by
  obtain ⟨⟨name, value⟩, mem, failed⟩ := Outcome.exists_of_mapM_eq_error h
  obtain ⟨code, rfl, atFault⟩ : ∃ code, value = .expression code ∧ cut code = .error fault := by
    obtain failed | ⟨nested, -, failed⟩ := bind_eq_error.1 failed
    · cases value with
      | expression code =>
        simp only [Fragment.nestValue] at failed
        split at failed
        · obtain failed | ⟨pieces, -, failed⟩ := bind_eq_error.1 failed
          · exact ⟨code, rfl, failed⟩
          · contradiction
        · contradiction
      | string | flag | nested => contradiction
    · contradiction
  exact .inside code cur (.refl cur) (codeAt_of_header previous taken mem) atFault

/-- The code in content. -/
theorem faulty_of_textAndCode {segments : List Segment}
    (taken : Content.read .strict cur = .ok (segments, after))
    (h : textAndCode cut [] segments = .error fault) : Faulty cut cur fault := by
  have along {run later : List Segment} (h : textAndCode cut run later = .error fault) :
      ∃ code, .expression code ∈ later ∧ cut code = .error fault := by
    induction later generalizing run with
    | nil => contradiction
    | cons segment later ih =>
      have further {run : List Segment} (h : textAndCode cut run later = .error fault) :
          ∃ code, .expression code ∈ segment :: later ∧ cut code = .error fault := by
        obtain ⟨code, mem, failed⟩ := ih h
        exact ⟨code, List.mem_cons_of_mem segment mem, failed⟩
      cases segment with
      | literal text => exact further h
      | expression code =>
        simp only [textAndCode] at h
        split at h
        · obtain failed | ⟨pieces, -, h⟩ := bind_eq_error.1 h
          · exact ⟨code, List.mem_cons_self, failed⟩
          · obtain failed | ⟨following, -, h⟩ := bind_eq_error.1 h
            · exact further failed
            · contradiction
        · exact further h
  obtain ⟨code, mem, failed⟩ := along h
  exact .inside code cur (.refl cur) (codeAt_of_content taken mem) failed

/-! ## Closing tags -/

section

variable {tail : List Char} (more : cur.rest ≠ [])

theorem exists_of_slash (begins : Content.tagBegins cur.rest = true)
    (slash : cur.peekAt? 1 = some '/') : ∃ tail, cur.rest = '<' :: '/' :: tail := by
  obtain ⟨c, tail, opens⟩ := Content.exists_of_tagBegins begins
  rw [Cursor.peekAt?, opens] at slash
  obtain rfl := Option.some.inj slash
  exact ⟨tail, opens⟩

theorem rest_closing (opens : cur.rest = '<' :: '/' :: tail) :
    (cur.advance 2).skipSpace.rest = Text.trimStart tail := by
  rw [Cursor.rest_skipSpace, Cursor.rest_advance, opens]
  rfl

theorem name_closing (opens : cur.rest = '<' :: '/' :: tail) :
    (closing cur more).name.toList = (Text.trimStart tail).takeWhile Name.isClosingPart := by
  rw [closing]
  dsimp only
  rw [String.toList_ofList, rest_closing opens]
  rfl

/-- A closing tag ends if a `>` is left, for neither white space nor its name holds one. -/
theorem ended_closing (opens : cur.rest = '<' :: '/' :: tail) (mem : '>' ∈ tail) :
    (closing cur more).ended = true := by
  have beyond : '>' ∈ (Text.trimStart tail).dropWhile Name.isClosingPart :=
    mem_dropWhile (mem_dropWhile mem (by decide)) (by decide)
  have whole : (cur.advance 2).skipSpace.rest =
      (Text.trimStart tail).takeWhile Name.isClosingPart ++
        (Text.trimStart tail).dropWhile Name.isClosingPart := by
    rw [rest_closing opens, List.takeWhile_append_dropWhile]
  rw [← Cursor.rest_of_append whole] at beyond
  rw [closing]
  dsimp only
  rw [rest_closing opens]
  exact Cursor.ended_readPast beyond

/-- What is read of a closing tag: white space, its name, and all up to the first `>`. -/
theorem closing_parts (begins : Content.tagBegins cur.rest = true)
    (slash : cur.peekAt? 1 = some '/') :
    ∃ space rest, Blank space ∧
      cur.rest = '<' :: '/' :: (space ++ ((closing cur more).name.toList ++ rest)) ∧
      rest.head?.any Name.isClosingPart = false ∧
      ((closing cur more).ended = false → '>' ∉ cur.rest) := by
  obtain ⟨tail, opens⟩ := exists_of_slash begins slash
  have whole : tail = tail.takeWhile isSpace ++ ((closing cur more).name.toList ++
      (Text.trimStart tail).dropWhile Name.isClosingPart) := by
    rw [name_closing more opens, List.takeWhile_append_dropWhile]
    exact List.takeWhile_append_dropWhile.symm
  refine ⟨_, _, List.all_eq_true.1 List.all_takeWhile,
    opens.trans (congrArg ('<' :: '/' :: ·) whole), any_head?_dropWhile _ _, fun unended mem => ?_⟩
  have inTail : '>' ∈ tail := by simpa [opens] using mem
  rw [ended_closing more opens inTail] at unended
  contradiction

end

end Descent

end InlineMarkup
