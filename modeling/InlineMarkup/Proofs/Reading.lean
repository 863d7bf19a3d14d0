import InlineMarkup.Proofs.Spacing

/-!
# InlineMarkup.Proofs.Reading

Written markup read back, one construct at a time.  Each statement is about a
cursor with the text of the construct ahead of it, and anything after that: the
reader gives what was written and stops right after its text.

* `Header.read_written`: opening tags, by running the header machine over the
  name, the attributes and the end;
* `Content.read_written`: everything between two tags;
* `Descent.closing_written`: closing tags.
-/

namespace InlineMarkup

open Outcome (ok_bind)
open Text (Blank)
open Unicode (isSpace)

theorem ne_of_isSpace {c d : Char} (space : isSpace c = true) (visible : isSpace d = false) :
    c ≠ d := by
  rintro rfl
  rw [space] at visible
  contradiction

/-- White space is none of the characters that mean something in a tag. -/
theorem marks_of_isSpace {c : Char} (space : isSpace c = true) : c ≠ '>' ∧ c ≠ '/' ∧ c ≠ '=' :=
  ⟨ne_of_isSpace space (by decide), ne_of_isSpace space (by decide), ne_of_isSpace space (by decide)⟩

theorem push_append_ofList (text : String) (c : Char) (rest : List Char) :
    text.push c ++ String.ofList rest = text ++ String.ofList (c :: rest) := by
  rw [← String.toList_inj]
  simp

theorem append_ofList_push (text : String) (read : List Char) (c : Char) :
    text ++ String.ofList (read ++ [c]) = (text ++ String.ofList read).push c := by
  rw [← String.toList_inj]
  simp

/-! ## Headers -/

theorem Attributes.insert_of_not_mem {name : String} {given : Attributes} (new : name ∉ given.names)
    (value : AttrValue) : given.insert name value = given ++ [(name, value)] := by
  induction given with
  | nil => rfl
  | cons entry given ih =>
    obtain ⟨other, later⟩ : name ≠ entry.1 ∧ name ∉ Attributes.names given := by
      simpa [Attributes.names] using new
    rw [insert, if_neg (Ne.symm other), ih later, List.cons_append]

namespace Header

section

variable {mode : Mode} {start : Position} {tag : String} {attributes : Attributes} {closed : Bool}
  {cur : Cursor} {text rest : List Char}

/-- Characters that the machine shifts over, in phases that tell what was read. -/
theorem run_shifts (make : List Char → Phase) (h : cur.rest = text ++ rest)
    (unfinished : ∀ read, make read ≠ .done)
    (each : ∀ read, ∀ c ∈ text, ∀ scan : Scan, scan.phase = make read →
      step mode scan c = .ok (scan.shift (make (read ++ [c])))) :
    run mode start ⟨make [], tag, attributes, closed, cur⟩ =
      run mode start ⟨make text, tag, attributes, closed, cur.advance text.length⟩ := by
  induction text generalizing make cur with
  | nil => rfl
  | cons c text ih =>
    rw [run_cons (unfinished []) h, each [] c List.mem_cons_self _ rfl, ok_bind]
    have ahead : cur.next.rest = text ++ rest := Cursor.rest_next h
    have later := ih (fun read => make (c :: read)) ahead (fun read => unfinished (c :: read))
      fun read d mem scan phase => each (c :: read) d (List.mem_cons_of_mem c mem) scan phase
    rw [Cursor.next_advance] at later
    exact later

/-- The phases that white space makes no difference to. -/
inductive PassesSpace : Phase → Prop
  | beforeName : PassesSpace .beforeName
  | afterName (name : String) : PassesSpace (.afterName name)
  | beforeValue (name : String) : PassesSpace (.beforeValue name)
  | slash : PassesSpace .slash

theorem step_space {phase : Phase} (passes : PassesSpace phase) {c : Char}
    (space : isSpace c = true) {scan : Scan} (here : scan.phase = phase) :
    step mode scan c = .ok (scan.shift phase) := by
  obtain ⟨notEnd, notSlash, notEquals⟩ := marks_of_isSpace space
  cases passes with
  | beforeName => simp [step, here, notEnd, notSlash, space]
  | afterName name => simp [step, here, notEquals, space]
  | beforeValue name => simp [step, here, space]
  | slash => simp [step, here, notEnd, space]

theorem run_blank {phase : Phase} (passes : PassesSpace phase) (blank : Blank text)
    (h : cur.rest = text ++ rest) :
    run mode start ⟨phase, tag, attributes, closed, cur⟩ =
      run mode start ⟨phase, tag, attributes, closed, cur.advance text.length⟩ := by
  have unfinished : phase ≠ .done := by
    rintro rfl
    cases passes
  exact run_shifts (fun _ => phase) h (fun _ => unfinished) fun _ c mem scan here =>
    step_space passes (blank c mem) here

/-- The name of a tag. -/
theorem run_tagName (h : cur.rest = text ++ rest)
    (plain : ∀ c ∈ text, isSpace c = false ∧ c ≠ '/' ∧ c ≠ '>') :
    run mode start ⟨.tagName, tag, attributes, closed, cur⟩ =
      run mode start ⟨.tagName, tag ++ String.ofList text, attributes, closed,
        cur.advance text.length⟩ := by
  induction text generalizing tag cur with
  | nil =>
    rw [String.ofList_nil, String.append_empty]
    rfl
  | cons c text ih =>
    obtain ⟨⟨visible, notSlash, notEnd⟩, later⟩ := List.forall_mem_cons.1 plain
    have ahead : cur.next.rest = text ++ rest := Cursor.rest_next h
    have taken : step mode ⟨.tagName, tag, attributes, closed, cur⟩ c =
        .ok ⟨.tagName, tag.push c, attributes, closed, cur.next⟩ := by
      simp [step, Scan.shift, visible, notSlash, notEnd]
    rw [run_cons (by simp) h, taken, ok_bind, ih ahead later, push_append_ofList, Cursor.next_advance,
      List.length_cons]

/-! ### What follows a name -/

/-- What may follow an attribute: white space and then another one, or the end of
the tag with or without white space before it. -/
def Follows (rest : List Char) : Prop :=
  ∃ space c more, rest = space ++ c :: more ∧ Blank space ∧ isSpace c = false ∧ c ≠ '=' ∧
    (space = [] → c = '>' ∨ c = '/')

/-- After the name of the tag an attribute may start. -/
theorem run_tagName_end (follows : Follows cur.rest) :
    run mode start ⟨.tagName, tag, attributes, closed, cur⟩ =
      run mode start ⟨.beforeName, tag, attributes, closed, cur⟩ := by
  obtain ⟨space, c, more, h, blank, visible, -, ending⟩ := follows
  have same {d : Char} {rest : List Char} (h : cur.rest = d :: rest)
      (ends : d = '>' ∨ d = '/' ∨ isSpace d = true) :
      run mode start ⟨.tagName, tag, attributes, closed, cur⟩ =
        run mode start ⟨.beforeName, tag, attributes, closed, cur⟩ := by
    rw [run_cons (by simp) h, run_cons (by simp) h]
    congr 1
    obtain rfl | rfl | space := ends
    · rfl
    · rfl
    · obtain ⟨notEnd, notSlash, -⟩ := marks_of_isSpace space
      simp [step, Scan.shift, space, notEnd, notSlash]
  cases space with
  | nil => exact same h (by obtain rfl | rfl := ending rfl <;> simp)
  | cons d space => exact same h (.inr (.inr (blank d List.mem_cons_self)))

/-! ### Attributes -/

/-- The name of an attribute. -/
theorem run_attrName {name : String} (named : AttrName name) (h : cur.rest = name.toList ++ rest) :
    run mode start ⟨.beforeName, tag, attributes, closed, cur⟩ =
      run mode start ⟨.name name, tag, attributes, closed, cur.advance name.toList.length⟩ := by
  obtain ⟨c, following, letters⟩ : ∃ c following, name.toList = c :: following :=
    List.exists_cons_of_ne_nil (by simpa using named.nonempty)
  have plain := named.plain
  have brace : c ≠ '\x7b' := by
    have noBrace := named.noBrace
    rw [letters] at noBrace
    simpa using noBrace
  rw [letters] at h plain ⊢
  obtain ⟨⟨visible, notEquals, notEnd, notSlash⟩, later⟩ := List.forall_mem_cons.1 plain
  have first : step mode ⟨.beforeName, tag, attributes, closed, cur⟩ c =
      .ok ⟨.name (String.singleton c), tag, attributes, closed, cur.next⟩ := by
    simp [step, Scan.shift, visible, notEnd, notSlash, brace]
  have ahead : cur.next.rest = following ++ rest := Cursor.rest_next h
  have whole : String.singleton c ++ String.ofList following = name := by
    rw [← String.ofList_cons, ← letters, String.ofList_toList]
  have shifts : run mode start ⟨.name (String.singleton c ++ String.ofList []), tag, attributes,
      closed, cur.next⟩ = run mode start ⟨.name (String.singleton c ++ String.ofList following), tag,
        attributes, closed, cur.next.advance following.length⟩ :=
    run_shifts (fun read => .name (String.singleton c ++ String.ofList read)) ahead
      (fun read => by simp) fun read d mem scan here => by
        obtain ⟨visible, notEquals, notEnd, notSlash⟩ := later d mem
        rw [append_ofList_push]
        simp [step, here, visible, notEquals, notEnd, notSlash]
  rw [String.ofList_nil, String.append_empty] at shifts
  rw [run_cons (by simp) h, first, ok_bind, shifts, whole, Cursor.next_advance, List.length_cons]

/-- White space after the name of an attribute. -/
theorem run_name_blank {name : String} (blank : Blank text) (nonempty : text ≠ [])
    (h : cur.rest = text ++ rest) :
    run mode start ⟨.name name, tag, attributes, closed, cur⟩ =
      run mode start ⟨.afterName name, tag, attributes, closed, cur.advance text.length⟩ := by
  obtain ⟨c, text, rfl⟩ := List.exists_cons_of_ne_nil nonempty
  obtain ⟨space, later⟩ := List.forall_mem_cons.1 blank
  obtain ⟨notEnd, notSlash, notEquals⟩ := marks_of_isSpace space
  have first : step mode ⟨.name name, tag, attributes, closed, cur⟩ c =
      .ok ⟨.afterName name, tag, attributes, closed, cur.next⟩ := by
    simp [step, Scan.shift, space, notEnd, notSlash, notEquals]
  have ahead : cur.next.rest = text ++ rest := Cursor.rest_next h
  rw [run_cons (by simp) h, first, ok_bind, run_blank (.afterName name) later ahead,
    Cursor.next_advance, List.length_cons]

/-- An attribute without a value, once it is clear that none follows. -/
theorem run_flag {name : String} (follows : Follows cur.rest) :
    run mode start ⟨.name name, tag, attributes, closed, cur⟩ =
      run mode start ⟨.beforeName, tag, attributes.insert name .flag, closed, cur⟩ := by
  obtain ⟨space, c, more, h, blank, visible, notEquals, ending⟩ := follows
  by_cases empty : space = []
  · subst empty
    have taken : step mode ⟨.name name, tag, attributes, closed, cur⟩ c =
        .ok ⟨.beforeName, tag, attributes.insert name .flag, closed, cur⟩ := by
      obtain rfl | rfl := ending rfl
      · rfl
      · rfl
    rw [run_cons (by simp) h, taken, ok_bind]
  · have taken : step mode ⟨.afterName name, tag, attributes, closed, cur.advance space.length⟩ c =
        .ok ⟨.beforeName, tag, attributes.insert name .flag, closed, cur.advance space.length⟩ := by
      simp [step, Scan.commit, visible, notEquals]
    rw [run_name_blank blank empty h, run_cons (by simp) (Cursor.rest_of_append h), taken, ok_bind,
      ← run_blank .beforeName blank h]

/-- The equals sign after the name of an attribute, and white space around it. -/
theorem run_equals {name : String} {before after : List Char} (left : Blank before)
    (right : Blank after) (h : cur.rest = (before ++ '=' :: after) ++ rest) :
    run mode start ⟨.name name, tag, attributes, closed, cur⟩ =
      run mode start ⟨.beforeValue name, tag, attributes, closed,
        cur.advance (before ++ '=' :: after).length⟩ := by
  rw [List.append_assoc, List.cons_append] at h
  have sign := Cursor.rest_of_append h
  have ahead : (cur.advance before.length).next.rest = after ++ rest := Cursor.rest_next sign
  have equals : run mode start ⟨.name name, tag, attributes, closed, cur⟩ =
      run mode start ⟨.beforeValue name, tag, attributes, closed,
        (cur.advance before.length).next⟩ := by
    by_cases empty : before = []
    · subst empty
      rw [run_cons (by simp) h]
      rfl
    · rw [run_name_blank left empty h, run_cons (by simp) sign]
      rfl
  have size : before.length + (1 + after.length) = (before ++ '=' :: after).length := by
    rw [List.length_append, List.length_cons, Nat.add_comm 1]
  rw [equals, run_blank (.beforeValue name) right ahead, Cursor.next, Cursor.advance_advance,
    Cursor.advance_advance, size]

/-- A string between quotes that it does not hold. -/
theorem run_string {name value : String} {quote : Char} (quoted : IsQuote quote)
    (avoided : quote ∉ value.toList) (h : cur.rest = quote :: (value.toList ++ quote :: rest)) :
    run mode start ⟨.beforeValue name, tag, attributes, closed, cur⟩ =
      run mode start ⟨.beforeName, tag, attributes.insert name (.string value), closed,
        cur.advance (value.toList.length + 2)⟩ := by
  have opened : step mode ⟨.beforeValue name, tag, attributes, closed, cur⟩ quote =
      .ok ⟨.quoted quote name "", tag, attributes, closed, cur.next⟩ := by
    obtain rfl | rfl | rfl := quoted
    · rfl
    · rfl
    · rfl
  have ahead : cur.next.rest = value.toList ++ quote :: rest := Cursor.rest_next h
  have shifts : run mode start ⟨.quoted quote name ("" ++ String.ofList []), tag, attributes, closed,
      cur.next⟩ = run mode start ⟨.quoted quote name ("" ++ String.ofList value.toList), tag,
        attributes, closed, cur.next.advance value.toList.length⟩ :=
    run_shifts (fun read => .quoted quote name ("" ++ String.ofList read)) ahead
      (fun read => by simp) fun read d mem scan here => by
        have other : d ≠ quote := by
          rintro rfl
          exact avoided mem
        rw [append_ofList_push]
        simp [step, here, other]
  have ended : step mode ⟨.quoted quote name value, tag, attributes, closed,
      cur.next.advance value.toList.length⟩ quote =
      .ok ⟨.beforeName, tag, attributes.insert name (.string value), closed,
        (cur.next.advance value.toList.length).next⟩ := by
    simp [step, Scan.commit, Scan.shift]
  rw [String.ofList_nil, String.append_empty, String.empty_append, String.ofList_toList] at shifts
  rw [run_cons (by simp) h, opened, ok_bind, shifts,
    run_cons (by simp) (Cursor.rest_of_append ahead), ended, ok_bind, Cursor.next, Cursor.next,
    Cursor.advance_advance, Cursor.advance_advance]
  congr 3
  omega

/-- Code in braces. -/
theorem run_expression {name code : String} {left right : List Char} (plain : PlainCode code)
    (opening : Blank left) (closing : Blank right)
    (h : cur.rest = Layout.braced left code.toList right ++ rest) :
    run mode start ⟨.beforeValue name, tag, attributes, closed, cur⟩ =
      run mode start ⟨.beforeName, tag, attributes.insert name (.expression code), closed,
        cur.advance (Layout.braced left code.toList right).length⟩ := by
  have group := Group.read_braced opening plain.balanced closing h
  have trimmed : (Group.read cur).trimmed = code := by
    rw [group, Group.trimmed_blank opening closing, plain.trimmed, String.ofList_toList]
  have visible : isSpace '\x7b' = false := by decide
  have taken : step mode ⟨.beforeValue name, tag, attributes, closed, cur⟩ '\x7b' =
      .ok ⟨.beforeName, tag, attributes.insert name (.expression code), closed,
        cur.advance (Layout.braced left code.toList right).length⟩ := by
    simp [step, Scan.commit, visible, trimmed]
    simp [group]
  rw [run_cons (by simp) h, taken, ok_bind]

/-- What follows the name of an attribute. -/
theorem run_value {name : String} {value : AttrValue} (wellFormed : value.WellFormed)
    (written : Layout.ValueText value text) (h : cur.rest = text ++ rest) (follows : Follows rest) :
    run mode start ⟨.name name, tag, attributes, closed, cur⟩ =
      run mode start ⟨.beforeName, tag, attributes.insert name value, closed,
        cur.advance text.length⟩ := by
  cases written with
  | flag =>
    rw [List.nil_append] at h
    exact run_flag (h ▸ follows)
  | @string value before after quote left right quoted avoided =>
    have sign : cur.rest = (before ++ '=' :: after) ++ quote :: (value.toList ++ quote :: rest) := by
      rw [h]
      simp
    rw [run_equals left right sign, run_string quoted avoided (Cursor.rest_of_append sign),
      Cursor.advance_advance]
    congr 3
    simp
    omega
  | @expression code before after inner outer left right opening closing =>
    have sign : cur.rest = (before ++ '=' :: after) ++
        (Layout.braced inner code.toList outer ++ rest) := by
      rw [h]
      simp
    rw [run_equals left right sign,
      run_expression wellFormed opening closing (Cursor.rest_of_append sign),
      Cursor.advance_advance]
    congr 3
    simp
    omega

/-! ### Whole headers -/

/-- Attributes are followed by what may follow one. -/
theorem follows_written {given : Attributes} {slash : Bool} {header ending : List Char}
    (names : ∀ entry ∈ given, AttrName entry.1) (written : Layout.AttributesText given header)
    (ends : Layout.EndText slash ending) (rest : List Char) :
    Follows (header ++ (ending ++ rest)) := by
  cases written with
  | nil =>
    cases ends with
    | @plain space blank =>
      exact ⟨space, '>', rest, by simp, blank, by decide, by decide, fun _ => .inl rfl⟩
    | @slash space inner blank between =>
      exact ⟨space, '/', inner ++ '>' :: rest, by simp, blank, by decide, by decide,
        fun _ => .inr rfl⟩
  | @cons name value given space text more blank nonempty first following =>
    have named := names _ List.mem_cons_self
    obtain ⟨c, letters, same⟩ : ∃ c letters, name.toList = c :: letters :=
      List.exists_cons_of_ne_nil (by simpa using named.nonempty)
    obtain ⟨visible, notEquals, -⟩ := named.plain c (by rw [same]; exact List.mem_cons_self)
    refine ⟨space, c, letters ++ (text ++ (more ++ (ending ++ rest))), ?_, blank, visible, notEquals,
      fun empty => absurd empty nonempty⟩
    rw [same]
    simp

/-- The attributes of a tag, one after the other. -/
theorem run_attributes {given : Attributes} {slash : Bool} {header ending : List Char}
    (names : ∀ entry ∈ given, AttrName entry.1) (values : ∀ entry ∈ given, entry.2.WellFormed)
    (distinct : (attributes ++ given).names.Nodup) (written : Layout.AttributesText given header)
    (ends : Layout.EndText slash ending) (h : cur.rest = header ++ (ending ++ rest)) :
    run mode start ⟨.beforeName, tag, attributes, closed, cur⟩ =
      run mode start ⟨.beforeName, tag, attributes ++ given, closed, cur.advance header.length⟩ := by
  induction written generalizing attributes cur with
  | nil => rw [List.append_nil]; rfl
  | @cons name value given space text more blank nonempty first following ih =>
    obtain ⟨named, names⟩ := List.forall_mem_cons.1 names
    obtain ⟨wellFormed, values⟩ := List.forall_mem_cons.1 values
    have new : name ∉ Attributes.names attributes := by
      simp only [Attributes.names, List.map_append, List.nodup_append, List.map_cons] at distinct
      intro mem
      exact distinct.2.2 name mem name List.mem_cons_self rfl
    have follows := follows_written names following ends rest
    simp only [List.append_assoc] at h
    have atName := Cursor.rest_of_append h
    have atValue := Cursor.rest_of_append atName
    have atMore := Cursor.rest_of_append atValue
    rw [← List.singleton_append, ← List.append_assoc] at distinct
    rw [run_blank .beforeName blank h, run_attrName named atName, run_value wellFormed first atValue
      follows, Attributes.insert_of_not_mem new, ih names values distinct atMore]
    simp only [Cursor.advance_advance, List.append_assoc, List.singleton_append, List.length_append,
      Nat.add_assoc]

/-- The end of an opening tag. -/
theorem run_ending {slash : Bool} {ending : List Char} (ends : Layout.EndText slash ending)
    (h : cur.rest = ending ++ rest) :
    run mode start ⟨.beforeName, tag, attributes, false, cur⟩ =
      .ok (⟨tag, attributes, slash || (!Name.isComponent tag && Name.isVoid tag), true⟩,
        cur.advance ending.length) := by
  cases ends with
  | @plain space blank =>
    rw [List.append_assoc] at h
    have close := Cursor.rest_of_append h
    have taken : step mode ⟨.beforeName, tag, attributes, false, cur.advance space.length⟩ '>' =
        .ok ⟨.done, tag, attributes, false, (cur.advance space.length).next⟩ := rfl
    rw [run_blank .beforeName blank h, run_cons (by simp) close, taken, ok_bind, run_done rfl,
      Cursor.next, Cursor.advance_advance, List.length_append]
    rfl
  | @slash space inner blank between =>
    rw [List.append_assoc, List.cons_append, List.append_assoc] at h
    have mark := Cursor.rest_of_append h
    have ahead : (cur.advance space.length).next.rest = inner ++ (['>'] ++ rest) :=
      Cursor.rest_next mark
    have close := Cursor.rest_of_append ahead
    have slashed : step mode ⟨.beforeName, tag, attributes, false, cur.advance space.length⟩ '/' =
        .ok ⟨.slash, tag, attributes, false, (cur.advance space.length).next⟩ := rfl
    have taken : step mode ⟨.slash, tag, attributes, false,
        (cur.advance space.length).next.advance inner.length⟩ '>' =
        .ok ⟨.done, tag, attributes, true,
          ((cur.advance space.length).next.advance inner.length).next⟩ := rfl
    rw [run_blank .beforeName blank h, run_cons (by simp) mark, slashed, ok_bind,
      run_blank .slash between ahead, run_cons (by simp) close, taken, ok_bind, run_done rfl]
    simp only [Cursor.next, Cursor.advance_advance, List.length_append, List.length_cons,
      List.length_nil, finish, Bool.true_or]
    congr 3
    omega

/-- **Opening tags are read back** as they were written. -/
theorem read_written {name : String} {given : Attributes} {slash : Bool} {header ending : List Char}
    (named : TagName name) (names : ∀ entry ∈ given, AttrName entry.1)
    (values : ∀ entry ∈ given, entry.2.WellFormed) (distinct : given.names.Nodup)
    (written : Layout.AttributesText given header) (ends : Layout.EndText slash ending)
    (h : cur.rest = name.toList ++ (header ++ (ending ++ rest))) :
    read mode cur =
      .ok (⟨name, given, slash || (!Name.isComponent name && Name.isVoid name), true⟩,
        cur.advance (name.toList ++ (header ++ ending)).length) := by
  have atHeader := Cursor.rest_of_append h
  have follows := follows_written names written ends rest
  rw [← atHeader] at follows
  have distinct : (Attributes.names ([] ++ given)).Nodup := distinct
  rw [read, Scan.start, run_tagName h named.plain, String.empty_append, String.ofList_toList,
    run_tagName_end follows, run_attributes names values distinct written ends atHeader,
    List.nil_append, run_ending ends (Cursor.rest_of_append atHeader), Cursor.advance_advance,
    Cursor.advance_advance, List.length_append, List.length_append]

end

end Header

/-! ## Content -/

namespace Content

open Layout (GapText RunText literals)

/-- A character that stands for itself between tags. -/
def IsPlain (c : Char) : Prop := c ≠ '<' ∧ c ≠ '\x7b' ∧ c ≠ '/'

theorem isPlain_of_isSpace {c : Char} (space : isSpace c = true) : IsPlain c :=
  ⟨ne_of_isSpace space (by decide), ne_of_isSpace space (by decide), ne_of_isSpace space (by decide)⟩

theorem lead_plain {c : Char} (plain : IsPlain c) (previous : Option Char) (rest : List Char) :
    lead previous (c :: rest) = .character c := by
  obtain ⟨notTag, notGroup, notSlash⟩ := plain
  unfold lead
  split
  · contradiction
  · next same => exact absurd (List.cons.inj same).1 notTag
  · next same => exact absurd (List.cons.inj same).1 notGroup
  · next same => exact absurd (List.cons.inj same).1 notSlash
  · next same => rw [(List.cons.inj same).1]

/-- Content stops where a tag begins. -/
theorem lead_tag {rest : List Char} (begins : tagBegins rest = true) (previous : Option Char) :
    lead previous rest = .stop := by
  unfold tagBegins at begins
  split at begins
  · next c more =>
    have notMark : c ≠ '!' := by
      rintro rfl
      revert begins
      decide +kernel
    simp [lead, tagBegins, notMark, Ne.symm notMark, begins]
  · contradiction

section

variable {mode : Mode} {cur : Cursor} {text rest : List Char} {segments : List Segment}

theorem readFrom_plain (plain : ∀ c ∈ text, IsPlain c) (pending : List Char)
    (h : cur.rest = text ++ rest) :
    readFrom mode pending segments cur =
      readFrom mode (text.reverse ++ pending) segments (cur.advance text.length) := by
  induction text generalizing pending cur with
  | nil => rfl
  | cons c text ih =>
    obtain ⟨first, later⟩ := List.forall_mem_cons.1 plain
    have ahead : cur.next.rest = text ++ rest := Cursor.rest_next h
    rw [readFrom_eq, h, List.cons_append, lead_plain first]
    dsimp only
    rw [ih later (c :: pending) ahead, Cursor.next_advance, List.reverse_cons, List.append_assoc,
      List.singleton_append, List.length_cons]

theorem isPlain_gap {literal : Option String} (gap : GapText literal text)
    (wellFormed : ∀ segment ∈ literals literal, segment.WellFormed) : ∀ c ∈ text, IsPlain c := by
  cases gap with
  | none layout => exact fun c mem => isPlain_of_isSpace (layout.blank c mem)
  | @literal text before after left right start stop =>
    obtain ⟨-, plain⟩ := wellFormed (.literal text) List.mem_cons_self
    intro c mem
    simp only [List.mem_append] at mem
    obtain mem | mem | mem := mem
    · exact isPlain_of_isSpace (left.blank c mem)
    · obtain ⟨notTag, notGroup, notSlash, -⟩ := plain c mem
      exact ⟨notTag, notGroup, notSlash⟩
    · exact isPlain_of_isSpace (right.blank c mem)

/-- Of a gap the literal text is kept. -/
theorem flush_gap {literal : Option String} (gap : GapText literal text)
    (wellFormed : ∀ segment ∈ literals literal, segment.WellFormed) :
    flush text.reverse segments = (literals literal).reverse ++ segments := by
  cases gap with
  | none layout =>
    obtain rfl | ⟨blank, feed⟩ := layout
    · rfl
    · have nonempty : text.reverse.isEmpty = false := by
        simpa using List.ne_nil_of_mem feed
      rw [flush, nonempty, List.reverse_reverse, Literal.normalize_layout blank feed]
      rfl
  | @literal shown before after left right start stop =>
    obtain ⟨nonempty, plain⟩ := wellFormed (.literal shown) List.mem_cons_self
    have visible : shown.toList ≠ [] := by simpa using nonempty
    have noFeed : '\n' ∉ shown.toList := fun mem => (plain _ mem).2.2.2 rfl
    have some : (before ++ (shown.toList ++ after)).reverse.isEmpty = false := by
      simp [nonempty]
    rw [flush, some, List.reverse_reverse,
      Literal.normalize_literal left right visible noFeed start stop]
    simp [literals]

/-- Everything between two tags, after the segments before it, latest first. -/
theorem readFrom_written {written : List Segment} (run : RunText written text)
    (wellFormed : ∀ segment ∈ written, segment.WellFormed) (begins : tagBegins rest = true)
    (h : cur.rest = text ++ rest) :
    readFrom mode [] segments cur = .ok (segments.reverse ++ written, cur.advance text.length) := by
  induction run generalizing segments cur with
  | @last literal text gap =>
    rw [readFrom_plain (isPlain_gap gap wellFormed) [] h, List.append_nil, readFrom_eq,
      Cursor.rest_of_append h, lead_tag begins]
    dsimp only
    rw [flush_gap gap wellFormed, List.reverse_append, List.reverse_reverse]
  | @expression literal code written text left right more gap opening closing following ih =>
    obtain ⟨literalFormed, laterFormed⟩ := List.forall_mem_append.1 wellFormed
    obtain ⟨⟨plain, notComment⟩, laterFormed⟩ := List.forall_mem_cons.1 laterFormed
    simp only [List.append_assoc] at h
    have atGroup := Cursor.rest_of_append h
    have group := Group.read_braced opening plain.balanced closing atGroup
    have trimmed : (Group.read (cur.advance text.length)).trimmed = code := by
      rw [group, Group.trimmed_blank opening closing, plain.trimmed, String.ofList_toList]
    have begun :
        lead (cur.advance text.length).previous? (cur.advance text.length).rest = .group := by
      rw [atGroup]
      rfl
    have kept := isCommentOnly_blank opening closing notComment
    rw [readFrom_plain (isPlain_gap gap literalFormed) [] h, List.append_nil, readFrom_eq, begun]
    dsimp only
    rw [trimmed, group, if_neg (by simp), kept, if_neg (by simp), flush_gap gap literalFormed,
      ih laterFormed (Cursor.rest_of_append atGroup)]
    simp [Nat.add_assoc]

/-- **Content is read back** as it was written, up to the tag that follows. -/
theorem read_written {written : List Segment} (run : RunText written text)
    (wellFormed : ∀ segment ∈ written, segment.WellFormed) (begins : tagBegins rest = true)
    (h : cur.rest = text ++ rest) : read mode cur = .ok (written, cur.advance text.length) :=
  readFrom_written run wellFormed begins h

end

end Content

/-! ## Closing tags -/

theorem takeWhile_append_stop {p : Char → Bool} {text rest : List Char}
    (all : ∀ c ∈ text, p c = true) (stop : rest.head?.any p = false) :
    (text ++ rest).takeWhile p = text := by
  rw [List.takeWhile_append_of_pos all]
  cases rest with
  | nil => rw [List.takeWhile_nil, List.append_nil]
  | cons c rest => rw [List.takeWhile_cons_of_neg (by simpa using stop), List.append_nil]

/-- What is left of a text after the characters of a kind begins with another one. -/
theorem any_head?_dropWhile (p : Char → Bool) (text : List Char) :
    (text.dropWhile p).head?.any p = false := by
  have first := List.head?_dropWhile_not p text
  cases left : text.dropWhile p with
  | nil => rfl
  | cons c rest =>
    rw [left] at first
    simpa using first

/-- A character of another kind is left. -/
theorem mem_dropWhile {p : Char → Bool} {c : Char} {text : List Char} (mem : c ∈ text)
    (other : p c = false) : c ∈ text.dropWhile p := by
  rw [← List.takeWhile_append_dropWhile (p := p) (l := text), List.mem_append] at mem
  obtain inside | left := mem
  · have part := List.all_eq_true.1 List.all_takeWhile c inside
    rw [other] at part
    contradiction
  · exact left

namespace Cursor

variable {cur : Cursor} {text rest : List Char}

theorem rest_skipSpace (cur : Cursor) : cur.skipSpace.rest = Text.trimStart cur.rest := by
  have whole : cur.rest = cur.rest.takeWhile isSpace ++ Text.trimStart cur.rest :=
    List.takeWhile_append_dropWhile.symm
  rw [skipSpace]
  exact rest_of_append whole

theorem skipSpace_blank (blank : Blank text) (stop : rest.head?.any isSpace = false)
    (h : cur.rest = text ++ rest) : cur.skipSpace = cur.advance text.length := by
  rw [skipSpace, h, takeWhile_append_stop blank stop]

theorem readPast_append {target : Char} (absent : target ∉ text)
    (h : cur.rest = text ++ target :: rest) :
    cur.readPast target none = ⟨text, true, cur.advance (text.length + 1)⟩ := by
  rw [readPast, read, h, Text.extent_readPast absent]
  dsimp only
  rw [Nat.add_sub_cancel, List.take_left]

theorem ended_readPast {target : Char} (mem : target ∈ cur.rest) :
    (cur.readPast target none).ended = true := by
  obtain ⟨before, after, split, first⟩ := List.eq_append_cons_of_mem mem
  rw [readPast_append first split]

end Cursor

namespace Descent

/-- **Closing tags are read back** as they were written. -/
theorem closing_written {cur : Cursor} {name : String} {before after rest : List Char}
    (named : TagName name) (left : Blank before) (right : Blank after)
    (h : cur.rest = Layout.closingText before name after ++ rest) (more : cur.rest ≠ []) :
    (closing cur more).name = name ∧ (closing cur more).ended = true ∧
      (closing cur more).after.1 = cur.advance (Layout.closingText before name after).length := by
  have atSpace : (cur.advance 2).rest = before ++ (name.toList ++ (after ++ '>' :: rest)) := by
    rw [Cursor.rest_advance, h]
    simp [Layout.closingText]
  have visible : (name.toList ++ (after ++ '>' :: rest)).head?.any isSpace = false := by
    have starts := named.starts
    cases letters : name.toList with
    | nil => rw [letters] at starts; contradiction
    | cons c letters' =>
      have plain := (named.plain c (by rw [letters]; exact List.mem_cons_self)).1
      simpa using plain
  have start := Cursor.skipSpace_blank left visible atSpace
  have atName := Cursor.rest_of_append atSpace
  have all : ∀ c ∈ name.toList, (c != '>' && !isSpace c) = true := by
    intro c mem
    obtain ⟨plain, -, notEnd⟩ := named.plain c mem
    simp [plain, notEnd]
  have stop : (after ++ '>' :: rest).head?.any (fun c => c != '>' && !isSpace c) = false := by
    cases after with
    | nil => rfl
    | cons c after => simp [right c List.mem_cons_self]
  have word := takeWhile_append_stop all stop
  have atEnd := Cursor.rest_of_append atName
  have noEnd : '>' ∉ after := right.not_mem (by decide)
  have ending := Cursor.readPast_append noEnd atEnd
  simp only [closing, start, atName, word, ending]
  refine ⟨String.ofList_toList, trivial, ?_⟩
  simp only [Cursor.advance_advance, Layout.closingText, List.length_cons, List.length_append,
    List.length_nil]
  congr 1
  omega

end Descent

end InlineMarkup
