import InlineMarkup.Proofs.Trees
import InlineMarkup.Proofs.Window

/-!
# InlineMarkup.Proofs.Soundness

What every node of every tree that is read is like, whatever was passed over on the
way.  The parts of it are made sure of in different places:

* `Header.Scan.Sound` is kept by every transition of the machine that reads headers,
  so that `Header.sound_of_read` holds however a header ends;
* `Literal.normalize_sound`, `Group.trimmed_sound`: the segments of texts;
* `Node.Sound` puts them together, and `tree_sound` says it of all nodes of a tree.
-/

namespace InlineMarkup

open Outcome (bind_eq_ok)
open Text (Blank)
open Unicode (isSpace)

/-! ## Names -/

/-- No identifier holds white space. -/
theorem Name.not_isSpace_of_isPart {c : Char} (part : isPart c = true) : isSpace c = false := by
  -- There are few white space characters, so each of them can be looked at.
  have spaces : ∀ r ∈ Unicode.spaceRanges, ∀ k < r.2 + 1 - r.1,
      isPart (Char.ofNat (r.1 + k)) = false := by
    decide +kernel
  cases space : isSpace c with
  | false => rfl
  | true =>
    obtain ⟨r, mem, low, high⟩ := Unicode.Ranges.holds_iff.1 space
    have other := spaces r mem (c.toNat - r.1) (by omega)
    rw [Nat.add_sub_cancel' low, Char.ofNat_toNat, part] at other
    exact absurd other.symm Bool.false_ne_true

/-- What the first character of a name is not. -/
theorem Name.plain_of_isStart {c : Char} (start : isStart c = true) :
    isSpace c = false ∧ c ≠ '/' ∧ c ≠ '>' := by
  refine ⟨not_isSpace_of_isPart (isPart_of_isStart start), ?_, ?_⟩
  · rintro rfl
    revert start
    decide +kernel
  · rintro rfl
    revert start
    decide +kernel

namespace TagName

/-- A name that was just begun. -/
theorem singleton {c : Char} (start : Name.isStart c = true) : TagName (String.singleton c) where
  starts := by rw [String.toList_singleton]; exact start
  plain := by
    rw [String.toList_singleton]
    exact List.forall_mem_singleton.2 (Name.plain_of_isStart start)

/-- A name goes on. -/
theorem push {name : String} (named : TagName name) {c : Char}
    (plain : isSpace c = false ∧ c ≠ '/' ∧ c ≠ '>') : TagName (name.push c) where
  starts := by
    have starts := named.starts
    rw [String.toList_push]
    cases first : name.toList with
    | nil => rw [first] at starts; contradiction
    | cons d rest => rw [first] at starts; exact starts
  plain := by
    rw [String.toList_push]
    exact List.forall_mem_append.2 ⟨named.plain, List.forall_mem_singleton.2 plain⟩

end TagName

/-! ## Attributes -/

/-- Every attribute has a name of its own. -/
structure Attributes.Sound (attributes : Attributes) : Prop where
  distinct : attributes.names.Nodup
  named : "" ∉ attributes.names

namespace Attributes.Sound

theorem nil : Attributes.Sound [] := ⟨List.nodup_nil, List.not_mem_nil⟩

theorem insert {attributes : Attributes} (sound : attributes.Sound) {name : String}
    (named : name ≠ "") (value : AttrValue) : (attributes.insert name value).Sound := by
  have names := names_insert name value attributes
  split at names
  · exact ⟨by rw [names]; exact sound.distinct, by rw [names]; exact sound.named⟩
  · next new =>
    constructor
    · rw [names, List.nodup_append]
      refine ⟨sound.distinct, List.nodup_cons.2 ⟨List.not_mem_nil, List.nodup_nil⟩, ?_⟩
      intro a old b last same
      exact new (List.mem_singleton.1 last ▸ same ▸ old)
    · rw [names, List.mem_append, List.mem_singleton]
      exact not_or.2 ⟨sound.named, Ne.symm named⟩

end Attributes.Sound

/-- Cutting the code of values into pieces keeps the names. -/
theorem Fragment.names_nestAttributes {reader : Reader} {given attributes : Attributes}
    (h : nestAttributes reader given = .ok attributes) : attributes.names = given.names := by
  unfold nestAttributes at h
  induction given generalizing attributes with
  | nil =>
    cases h
    rfl
  | cons entry rest ih =>
    rw [List.mapM_cons] at h
    obtain ⟨first, taken, h⟩ := bind_eq_ok.1 h
    obtain ⟨following, later, h⟩ := bind_eq_ok.1 h
    obtain ⟨value, -, same⟩ := bind_eq_ok.1 taken
    cases h
    cases same
    exact congrArg (entry.1 :: ·) (ih later)

/-! ## Headers -/

namespace Header

/-- The name of the attribute that is being read. -/
def Phase.pending? : Phase → Option String
  | .name pending | .afterName pending | .beforeValue pending => some pending
  | .quoted _ pending _ | .unquoted pending _ => some pending
  | .tagName | .beforeName | .slash | .done => none

/-- What is true of a header at any time after its first character. -/
structure Scan.Sound (scan : Scan) : Prop where
  tag : TagName scan.tag
  attributes : scan.attributes.Sound
  pending : scan.phase.pending? ≠ some ""

namespace Scan.Sound

variable {scan : Scan}

theorem begun (sound : scan.Sound) {name : String} (h : scan.phase.pending? = some name) :
    name ≠ "" := by
  rintro rfl
  exact sound.pending h

theorem shift (sound : scan.Sound) {phase : Phase} (pending : phase.pending? ≠ some "") :
    (scan.shift phase).Sound :=
  ⟨sound.tag, sound.attributes, pending⟩

theorem commit (sound : scan.Sound) {name : String} (named : name ≠ "") (value : AttrValue) :
    (scan.commit name value).Sound :=
  ⟨sound.tag, sound.attributes.insert named value, by simp [Scan.commit, Phase.pending?]⟩

end Scan.Sound

/-- One transition: a name is begun with a character and takes in no other than it
may, and what is set has been begun. -/
theorem sound_step {mode : Mode} {scan next : Scan} {c : Char} (sound : scan.Sound)
    (h : step mode scan c = .ok next) : next.Sound := by
  have idle {phase : Phase} (h : phase.pending? = none) : phase.pending? ≠ some "" := by simp [h]
  have begun {phase : Phase} {name : String} (named : name ≠ "") (h : phase.pending? = some name) :
      phase.pending? ≠ some "" := by
    simpa [h] using named
  -- A `Move` does not tell which attribute is being read, so each phase is looked at.
  cases phase : scan.phase with
  | tagName =>
    simp only [step, phase] at h
    repeat' split at h
    all_goals cases h
    · exact sound.shift (idle rfl)
    · exact sound.shift (idle rfl)
    · exact sound.shift (idle rfl)
    · next gt slash space =>
      exact ⟨sound.tag.push ⟨Bool.eq_false_iff.2 space, slash, gt⟩, sound.attributes, idle rfl⟩
  | beforeName =>
    simp only [step, phase] at h
    repeat' split at h
    · cases h; exact sound.shift (idle rfl)
    · cases h; exact sound.shift (idle rfl)
    · cases h; exact sound.shift (idle rfl)
    · cases ok_of_refuse h; exact ⟨sound.tag, sound.attributes, idle rfl⟩
    · cases h; exact sound.shift (begun (by simp) rfl)
  | name name =>
    have named := sound.begun (by rw [phase]; rfl)
    simp only [step, phase] at h
    repeat' split at h
    all_goals cases h
    · exact sound.shift (begun named rfl)
    · exact sound.commit named _
    · exact sound.shift (begun named rfl)
    · exact sound.shift (begun String.push_ne_empty rfl)
  | afterName name =>
    have named := sound.begun (by rw [phase]; rfl)
    simp only [step, phase] at h
    repeat' split at h
    all_goals cases h
    · exact sound.shift (begun named rfl)
    · exact sound.shift (begun named rfl)
    · exact sound.commit named _
  | beforeValue name =>
    have named := sound.begun (by rw [phase]; rfl)
    simp only [step, phase] at h
    repeat' split at h
    · cases h; exact sound.shift (begun named rfl)
    · cases h; exact sound.shift (begun named rfl)
    · contradiction
    · cases h; exact ⟨sound.tag, sound.attributes.insert named _, idle rfl⟩
    · cases ok_of_refuse h; exact (sound.commit named _).shift (idle rfl)
    · cases ok_of_refuse h; exact sound.commit named _
    · cases h; exact sound.shift (begun named rfl)
  | quoted quote name value =>
    have named := sound.begun (by rw [phase]; rfl)
    simp only [step, phase] at h
    split at h
    all_goals cases h
    · exact (sound.commit named _).shift (idle rfl)
    · exact sound.shift (begun named rfl)
  | unquoted name value =>
    have named := sound.begun (by rw [phase]; rfl)
    simp only [step, phase] at h
    repeat' split at h
    all_goals cases h
    · exact sound.commit named _
    · exact (sound.commit named _).shift (idle rfl)
    · exact sound.shift (begun named rfl)
  | slash =>
    simp only [step, phase] at h
    repeat' split at h
    · cases h; exact ⟨sound.tag, sound.attributes, idle rfl⟩
    · cases h; exact sound.shift (idle rfl)
    · cases ok_of_refuse h; exact ⟨sound.tag, sound.attributes, idle rfl⟩
  | done =>
    simp only [step, phase] at h
    cases h
    exact sound

/-- The attribute that a header is cut off in was begun. -/
theorem sound_cutOff {scan : Scan} (sound : scan.Sound) : (cutOff scan).Sound := by
  unfold cutOff
  split
  · next name phase => exact sound.attributes.insert (sound.begun (by rw [phase]; rfl)) _
  · next name phase => exact sound.attributes.insert (sound.begun (by rw [phase]; rfl)) _
  · next quote name value phase => exact sound.attributes.insert (sound.begun (by rw [phase]; rfl)) _
  · next name value phase => exact sound.attributes.insert (sound.begun (by rw [phase]; rfl)) _
  all_goals exact sound.attributes

theorem sound_run {mode : Mode} {start : Position} {scan : Scan} {header : Header} {after : Cursor}
    (sound : scan.Sound) (h : run mode start scan = .ok (header, after)) :
    TagName header.name ∧ header.attributes.Sound := by
  fun_induction run mode start scan with
  | case1 scan done => cases h; exact ⟨sound.tag, sound.attributes⟩
  | case2 => contradiction
  | case3 scan unfinished ended => cases h; exact ⟨sound.tag, sound_cutOff sound⟩
  | case4 => contradiction
  | case5 scan unfinished c rest more next taken ih => exact ih (sound_step sound taken) h

/-- A header where markup starts: its name is begun with the first character. -/
theorem sound_of_read {mode : Mode} {cur after : Cursor} {header : Header}
    (start : Host.MarkupStart cur.rest) (h : read mode cur.next = .ok (header, after)) :
    TagName header.name ∧ header.attributes.Sound := by
  obtain ⟨c, more, begins, named⟩ := start
  obtain ⟨space, slash, gt⟩ := Name.plain_of_isStart named
  have rest : (Scan.start cur.next).cursor.rest = c :: more := Cursor.rest_next begins
  have first : step mode (.start cur.next) c =
      .ok { (Scan.start cur.next).shift .tagName with tag := "".push c } := by
    simp [step, Scan.start, space, slash, gt]
  rw [read, run_cons (by simp [Scan.start]) rest, first] at h
  exact sound_run ⟨.singleton named, .nil, by simp [Scan.shift, Phase.pending?]⟩ h

end Header

/-! ## Literal text -/

namespace Text

theorem trimStart_subset (text : List Char) : trimStart text ⊆ text :=
  (List.dropWhile_sublist isSpace).subset

theorem trimEnd_subset (text : List Char) : trimEnd text ⊆ text := by
  intro c mem
  exact List.mem_reverse.1 (trimStart_subset text.reverse (List.mem_reverse.1 mem))

theorem trim_subset (text : List Char) : trim text ⊆ text :=
  List.Subset.trans (trimEnd_subset _) (trimStart_subset text)

end Text

namespace Literal

theorem not_mem_trimFollowing {c : Char} {lines : List (List Char)}
    (absent : ∀ line ∈ lines, c ∉ line) : ∀ line ∈ trimFollowing lines, c ∉ line := by
  fun_induction trimFollowing lines with
  | case1 => exact absent
  | case2 last =>
    have absent := List.forall_mem_singleton.1 absent
    exact List.forall_mem_singleton.2 (mt (Text.trimStart_subset last ·) absent)
  | case3 line rest several ih =>
    obtain ⟨first, later⟩ := List.forall_mem_cons.1 absent
    exact List.forall_mem_cons.2 ⟨mt (Text.trim_subset line ·) first, ih later⟩

/-- Only a text without line feeds is a single line. -/
theorem not_mem_of_lines {raw : List Char}
    (single : ∀ first second rest, lines raw ≠ first :: second :: rest) : '\n' ∉ raw := by
  intro feed
  obtain ⟨a, b, rfl⟩ := List.append_of_mem feed
  obtain ⟨first, before, left⟩ := List.exists_cons_of_ne_nil (lines_ne_nil a)
  obtain ⟨second, after, right⟩ := List.exists_cons_of_ne_nil (lines_ne_nil b)
  have both := lines_append a b
  rw [left, right] at both
  cases before with
  | nil => exact single _ _ _ both
  | cons other before => exact single _ _ _ both

/-- Lines that are shown, with a space between them. -/
theorem intercalate_sound {kept : List (List Char)} (some : kept ≠ [])
    (shown : ∀ line ∈ kept, line ≠ [] ∧ '\n' ∉ line) :
    [' '].intercalate kept ≠ [] ∧ '\n' ∉ [' '].intercalate kept := by
  induction kept with
  | nil => contradiction
  | cons line rest ih =>
    obtain ⟨⟨visible, plain⟩, later⟩ := List.forall_mem_cons.1 shown
    cases rest with
    | nil =>
      rw [List.intercalate_singleton]
      exact ⟨visible, plain⟩
    | cons second rest =>
      obtain ⟨-, following⟩ := ih (List.cons_ne_nil _ _) later
      rw [List.intercalate_cons_cons]
      simp only [List.mem_append, List.append_assoc]
      exact ⟨List.append_ne_nil_of_left_ne_nil visible _,
        not_or.2 ⟨plain, not_or.2 ⟨by decide, following⟩⟩⟩

/-- Literal text is not empty, and on one line. -/
theorem normalize_sound {raw text : List Char} (visible : raw ≠ []) (h : normalize raw = some text) :
    text ≠ [] ∧ '\n' ∉ text := by
  unfold normalize at h
  split at h
  · next first second rest cut =>
    have lines : ∀ line ∈ first :: second :: rest, '\n' ∉ line := by
      rw [← cut]
      exact Text.not_mem_splitFrom List.not_mem_nil raw
    obtain ⟨start, following⟩ := List.forall_mem_cons.1 lines
    have trimmed : ∀ line ∈ Text.trimEnd first :: trimFollowing (second :: rest), '\n' ∉ line :=
      List.forall_mem_cons.2
        ⟨mt (Text.trimEnd_subset first ·) start, not_mem_trimFollowing following⟩
    split at h
    · contradiction
    · next kept some =>
      cases h
      refine intercalate_sound some fun line mem => ?_
      obtain ⟨mem, shown⟩ := List.mem_filter.1 mem
      exact ⟨by simpa using shown, trimmed line mem⟩
  · next single =>
    cases h
    exact ⟨visible, not_mem_of_lines single⟩

end Literal

/-! ## Code in braces -/

namespace Text

theorem blank_takeWhile (text : List Char) : Blank (text.takeWhile isSpace) := by
  induction text with
  | nil => exact blank_nil
  | cons c text ih =>
    rw [List.takeWhile_cons]
    split
    · next space => exact List.forall_mem_cons.2 ⟨space, ih⟩
    · exact blank_nil

theorem takeWhile_append_trimStart (text : List Char) :
    text.takeWhile isSpace ++ trimStart text = text :=
  List.takeWhile_append_dropWhile

theorem blank_of_trimStart {text : List Char} (h : trimStart text = []) : Blank text := by
  rw [← takeWhile_append_trimStart text, h, List.append_nil]
  exact blank_takeWhile text

/-- A text is what trimming leaves, with white space around it. -/
theorem exists_blank_trim (text : List Char) :
    ∃ left right, Blank left ∧ Blank right ∧ text = left ++ (trim text ++ right) := by
  refine ⟨text.takeWhile isSpace, ((trimStart text).reverse.takeWhile isSpace).reverse,
    blank_takeWhile _, (blank_takeWhile _).reverse, ?_⟩
  have ending := congrArg List.reverse (takeWhile_append_trimStart (trimStart text).reverse)
  rw [List.reverse_reverse, List.reverse_append] at ending
  rw [trim, trimEnd, ← trimStart, ending, takeWhile_append_trimStart]

theorem trim_trim (text : List Char) : trim (trim text) = trim text := by
  obtain ⟨left, right, opening, closing, whole⟩ := exists_blank_trim text
  have same := trim_blank opening closing (trim text)
  rw [← whole] at same
  exact same.symm

/-- A reader that takes the whole of a text may take some of what follows. -/
theorem dropPast_subset {σ : Type} {read : σ → Char → Option σ} {state : σ} {text : List Char}
    (h : dropPast read state text = []) (right : List Char) :
    dropPast read state (text ++ right) ⊆ right := by
  unfold dropPast at h ⊢
  split
  · next n found =>
    have beyond : text.drop n = [] := by
      by_cases inside : n ≤ text.length
      · rwa [extent_of_append found inside] at h
      · exact List.drop_eq_nil_of_le (by omega)
    rw [List.drop_append, beyond, List.nil_append]
    exact List.drop_subset _ right
  · exact List.nil_subset right

end Text

theorem isCommentOnly_of_blank {space : List Char} (blank : Blank space) :
    isCommentOnly space = true := by
  rw [isCommentOnly_eq, Text.trimStart_eq_nil blank]
  rfl

/-- A comment that ends with the text may take some white space after it. -/
theorem afterComment?_ended {text right : List Char} (h : afterComment? text = some [])
    (blank : Blank right) : ∃ rest, afterComment? (text ++ right) = some rest ∧ Blank rest := by
  unfold afterComment? at h
  split at h
  · next body =>
    exact ⟨_, rfl, fun c mem => blank c (Text.dropPast_subset (Option.some.inj h) right mem)⟩
  · next body =>
    exact ⟨_, rfl, fun c mem => blank c (Text.dropPast_subset (Option.some.inj h) right mem)⟩
  · contradiction

/-- White space around comments is no more than comments. -/
theorem isCommentOnly_around {left right code : List Char} (opening : Blank left)
    (closing : Blank right) (h : isCommentOnly code = true) :
    isCommentOnly (left ++ (code ++ right)) = true := by
  rw [isCommentOnly_eq, Text.trimStart_blank opening, ← isCommentOnly_eq]
  fun_induction isCommentOnly code with
  | case1 code rest found ih =>
    have visible : Text.trimStart code ≠ [] := by
      intro empty
      rw [empty] at found
      contradiction
    rw [isCommentOnly_eq, Text.trimStart_append visible]
    by_cases ended : rest = []
    · subst ended
      obtain ⟨after, found, blank⟩ := afterComment?_ended found closing
      rw [found]
      exact isCommentOnly_of_blank blank
    · rw [afterComment?_append found ended]
      exact ih h
  | case2 code found =>
    have blank := Text.blank_of_trimStart (List.isEmpty_iff.1 h)
    exact isCommentOnly_of_blank (List.forall_mem_append.2 ⟨blank, closing⟩)

/-! ## Content -/

/-- What a segment of a text is like: there is something to show, on one line, or
something to evaluate, without white space around it. -/
def Segment.Sound : Segment → Prop
  | .literal text => text ≠ "" ∧ '\n' ∉ text.toList
  | .expression code =>
    code ≠ "" ∧ Text.trim code.toList = code.toList ∧ isCommentOnly code.toList = false

/-- Trimming leaves more than comments, if there was more. -/
theorem isCommentOnly_trim {code : List Char} (h : isCommentOnly code = false) :
    isCommentOnly (Text.trim code) = false := by
  obtain ⟨left, right, opening, closing, whole⟩ := Text.exists_blank_trim code
  rw [← Bool.not_eq_true] at h ⊢
  rw [whole] at h
  exact mt (isCommentOnly_around opening closing) h

/-- Code in braces that is more than comments. -/
theorem Group.trimmed_sound {group : Group} (h : isCommentOnly group.code = false) :
    Segment.Sound (.expression group.trimmed) := by
  have more := isCommentOnly_trim h
  have visible : Text.trim group.code ≠ [] := by
    intro empty
    rw [empty, isCommentOnly_of_blank Text.blank_nil] at more
    contradiction
  rw [Group.trimmed, Segment.Sound, String.toList_ofList]
  exact ⟨mt String.ofList_eq_empty_iff.1 visible, Text.trim_trim _, more⟩

/-- Literal text that is shown. -/
theorem Literal.sound {raw text : List Char} (visible : raw ≠ []) (h : normalize raw = some text) :
    Segment.Sound (.literal (String.ofList text)) := by
  obtain ⟨shown, line⟩ := normalize_sound visible h
  rw [Segment.Sound, String.toList_ofList]
  exact ⟨mt String.ofList_eq_empty_iff.1 shown, line⟩

/-- Whatever content is made of, its segments are like this. -/
theorem Content.sound_of_read {mode : Mode} {cur after : Cursor} {segments : List Segment}
    (h : read mode cur = .ok (segments, after)) : ∀ segment ∈ segments, segment.Sound :=
  forall_segments Literal.sound (fun _ code => Group.trimmed_sound code) h

/-! ## Trees -/

/-- What a tag is like: its name tells components from elements and could be written
in a tag, every attribute has a name of its own, void elements close themselves, and
what closes itself has no content. -/
structure TagSound (kind : TagKind) (name : String) (attributes : Attributes)
    (children : List Node) (selfClosing : Bool) : Prop where
  component : kind = .component ↔ Name.isComponent name = true
  tagName : TagName name
  distinct : attributes.Sound
  void : kind = .element → Name.isVoid name = true → selfClosing = true
  leaf : selfClosing = true → children = []

/-- What a node is like. -/
def Node.Sound : Node → Prop
  | .tag kind name attributes children selfClosing =>
    TagSound kind name attributes children selfClosing
  | .text segments => segments ≠ [] ∧ ∀ segment ∈ segments, segment.Sound
  | .embedded _ _ => True

theorem Descent.kindOf_eq_component {name : String} :
    kindOf name = .component ↔ Name.isComponent name = true := by
  unfold kindOf
  split
  · next component => simp [component]
  · next element => simp [element]

/-- Nodes are made so. -/
theorem Fragment.made_sound (mode : Mode) : Made mode Anywhere Node.Sound where
  tag {cur after header attributes children} _ start taken nested leaf := by
    obtain ⟨named, given⟩ := Header.sound_of_read start taken
    have names := names_nestAttributes nested
    have void : Name.isVoid header.name = true → header.selfClosing = true := by
      intro void
      cases leaf : header.selfClosing with
      | true => rfl
      | false =>
        rw [Descent.notVoid_of_read mode taken leaf] at void
        contradiction
    exact
      { component := Descent.kindOf_eq_component
        tagName := named
        distinct := ⟨by rw [names]; exact given.distinct, by rw [names]; exact given.named⟩
        void := fun _ => void
        leaf := leaf }
  text _ read inside visible _ :=
    ⟨visible, fun segment mem => Content.sound_of_read read segment (inside mem)⟩
  embedded _ _ := trivial

/-- **Every tree that is read is sound**, in both modes and however deep one looks: in
content, in attributes, or in code that holds markup.  What lenient reading passes
over leaves no trace in the tree. -/
theorem tree_sound (mode : Mode) (text : String) (root : Node)
    (read : Fragment.parse .plain mode text = .ok root) :
    ∀ node : Node, node.PartOf root → node.Sound :=
  (Fragment.made_sound mode).parse read

/-- A tag with a stray slash and the same attribute twice, never closed, with a void
element and a text that is cut off in its braces. -/
theorem tree_sound_cutOff :
    ∃ root, Fragment.parse .plain .lenient "<p / a a=b>\n <br>\n hi \x7b/* c */ x" = .ok root ∧
      root.name? = some "p" ∧ root.children.length = 2 ∧
      ∀ node : Node, node.PartOf root → node.Sound := by
  have read : (Fragment.parse .plain .lenient "<p / a a=b>\n <br>\n hi \x7b/* c */ x").toOption.map
      (fun root => (root.name?, root.children.length)) = some (some "p", 2) := by
    decide +kernel
  obtain ⟨root, read, same⟩ := Option.map_eq_some_iff.1 read
  have read := Outcome.eq_ok_of_toOption read
  obtain ⟨name, two⟩ := Prod.mk.inj same
  exact ⟨root, read, name, two, tree_sound .lenient _ root read⟩

end InlineMarkup
