import InlineMarkup.Proofs.Endings
import InlineMarkup.Proofs.Fork

/-!
# InlineMarkup.Proofs.Segments

Text between tags, cut at its braces.  `Parts` is such a text as literals and the code between
them; there is only one way to cut a text (`Parts.unique`), for a group ends where its braces
are balanced first.  Reading content without comments in it comes to the segments of these
parts, one for each literal and each group that shows anything:

* `Parts.Cuts.character`, `Parts.Cuts.group`: what one step of reading adds to the parts;
* `exists_cuts`: so reading from a place on cuts the text from there, after the literal text
  that is pending.
-/

namespace InlineMarkup

open Text (Blank Balanced)

/-! ## Braces -/

/-- What is read as code in braces: up to the brace that balances them, or else everything. -/
theorem Group.read_cases {cur : Cursor} {more : List Char} (begins : cur.rest = '\x7b' :: more) :
    (∃ code after, more = code ++ '\x7d' :: after ∧ Balanced code ∧
      Group.read cur = ⟨code, true, cur.position, cur.advance (code.length + 2)⟩) ∨
    (∀ code after, Balanced code → more ≠ code ++ '\x7d' :: after) ∧
      Group.read cur = ⟨more, false, cur.position, cur.toEnd⟩ := by
  have inside := Cursor.rest_next begins
  cases found : Text.extent Text.readGroup 0 more with
  | some n =>
    obtain ⟨code, after, rfl, rfl, balanced⟩ := Text.balanced_of_extent found
    refine .inl ⟨code, after, rfl, balanced, ?_⟩
    simp [Group.read, Cursor.read, inside, found, Cursor.next_advance]
  | none =>
    refine .inr ⟨fun code after balanced => Text.unbalanced_of_extent found balanced, ?_⟩
    simp [Group.read, Cursor.read, inside, found, Cursor.toEnd, begins, Cursor.next_advance]

theorem Group.reaches_cursor (cur : Cursor) : cur.Reaches (Group.read cur).cursor :=
  cur.reaches_next.trans (Group.reaches_read cur)

/-- The text of a group: its code in braces, or after the opening one. -/
theorem Group.between_read {cur : Cursor} {more : List Char} (begins : cur.rest = '\x7b' :: more) :
    cur.between (Group.read cur).cursor =
      '\x7b' :: ((Group.read cur).code ++ if (Group.read cur).closed then ['\x7d'] else []) := by
  obtain ⟨code, after, rfl, -, read⟩ | ⟨-, read⟩ := Group.read_cases begins
  · rw [read, Cursor.between_advance, begins]
    simp [List.take_append, List.take_of_length_le]
  · rw [read, Cursor.toEnd, Cursor.between_advance, begins]
    simp

/-- The first brace that closes balanced code is the same for every such code. -/
theorem Text.Balanced.append_inj {code code' after after' : List Char} (balanced : Balanced code)
    (balanced' : Balanced code') (same : code ++ '\x7d' :: after = code' ++ '\x7d' :: after') :
    code = code' ∧ after = after' := by
  have closes {code after : List Char} (balanced : Balanced code) :
      extent readGroup 0 (code ++ '\x7d' :: after) = some (1 + code.length) := by
    simp [extent_balanced balanced, extent_cons, readGroup]
  have size : some (1 + code.length) = some (1 + code'.length) := by
    rw [← closes balanced, same, closes balanced']
  have parts := List.append_inj same (by simpa using size)
  simpa using parts

/-- A text without a character ends at the first place where that stands. -/
theorem Text.append_cons_inj {c : Char} {text text' rest rest' : List Char} (absent : c ∉ text)
    (absent' : c ∉ text') (same : text ++ c :: rest = text' ++ c :: rest') :
    text = text' ∧ rest = rest' := by
  have first {text rest : List Char} (absent : c ∉ text) :
      (text ++ c :: rest).takeWhile (· != c) = text := by
    refine takeWhile_append_stop (fun d mem => ?_) (by simp)
    simpa using ne_of_mem_of_not_mem mem absent
  obtain rfl : text = text' := by rw [← first absent, same, first absent']
  exact ⟨rfl, by simpa using same⟩

/-- Without a slash there are no comments, so code that is nothing more is white space. -/
theorem isCommentOnly_iff_blank {code : List Char} (slash : '/' ∉ code) :
    isCommentOnly code = true ↔ Blank code := by
  refine ⟨fun comment => ?_, isCommentOnly_of_blank⟩
  have visible : '/' ∉ Text.trimStart code := fun mem =>
    slash ((List.dropWhile_sublist _).subset mem)
  have none : afterComment? (Text.trimStart code) = none := by
    unfold afterComment?
    split
    · next found => simp [found] at visible
    · next found => simp [found] at visible
    · rfl
  rw [isCommentOnly_eq, none] at comment
  exact Text.blank_of_trimStart (by simpa using comment)

namespace Content

/-! ## Parts -/

/-- A text cut at its braces. -/
inductive Parts where
  /-- The literal text after the last group. -/
  | last (literal : List Char)
  /-- Literal text before a group that is never closed. -/
  | unclosed (literal code : List Char)
  /-- Literal text before a group, and what follows that. -/
  | braced (literal code : List Char) (following : Parts)
deriving DecidableEq

/-- What literal text is shown as: nothing, if there is none or it only lays out lines. -/
def literalSegments (literal : List Char) : List Segment :=
  if literal = [] then []
  else ((Literal.normalize literal).map fun text => .literal (String.ofList text)).toList

/-- What code in braces is shown as: nothing, if it is white space. -/
def codeSegments (code : List Char) : List Segment :=
  if Blank code then [] else [.expression (String.ofList (Text.trim code))]

theorem codeSegments_eq {code : List Char} (slash : '/' ∉ code) :
    codeSegments code =
      if isCommentOnly code then [] else [.expression (String.ofList (Text.trim code))] := by
  simp only [codeSegments, isCommentOnly_iff_blank slash]

namespace Parts

/-- The text, with the braces where it was cut. -/
def text : Parts → List Char
  | last literal => literal
  | unclosed literal code => literal ++ '\x7b' :: code
  | braced literal code following => literal ++ '\x7b' :: (code ++ '\x7d' :: following.text)

/-- The literals, in order. -/
def literals : Parts → List (List Char)
  | last literal => [literal]
  | unclosed literal _ => [literal]
  | braced literal _ following => literal :: following.literals

/-- What the parts are shown as, in order. -/
def segments : Parts → List Segment
  | last literal => literalSegments literal
  | unclosed literal code => literalSegments literal ++ codeSegments code
  | braced literal code following =>
    literalSegments literal ++ (codeSegments code ++ following.segments)

/-- The text is cut at each brace that begins a group, and each group at the brace that closes it.
A group may lack that in lenient mode, where it takes in everything up to the end. -/
def Exact (mode : Mode) (rest : List Char) : Parts → Prop
  | last literal => '\x7b' ∉ literal
  | unclosed literal code =>
    '\x7b' ∉ literal ∧ mode = .lenient ∧ rest = [] ∧
      ∀ inner after, Balanced inner → code ≠ inner ++ '\x7d' :: after
  | braced literal code following =>
    '\x7b' ∉ literal ∧ Balanced code ∧ following.Exact mode rest

/-- The parts with literal text before them. -/
def prepend (before : List Char) : Parts → Parts
  | last literal => last (before ++ literal)
  | unclosed literal code => unclosed (before ++ literal) code
  | braced literal code following => braced (before ++ literal) code following

/-- **There is one way to cut a text** at its braces. -/
theorem unique {mode : Mode} {rest : List Char} {parts other : Parts}
    (isExact : parts.Exact mode rest) (otherExact : other.Exact mode rest)
    (same : parts.text = other.text) : parts = other := by
  induction parts generalizing other with
  | last literal =>
    cases other with
    | last literal' => simpa [text] using same
    | unclosed literal' code' => simp_all [text, Exact]
    | braced literal' code' following' => simp_all [text, Exact]
  | unclosed literal code =>
    obtain ⟨plain, -, -, never⟩ := isExact
    cases other with
    | last literal' =>
      obtain rfl : literal ++ '\x7b' :: code = literal' := same
      simp [Exact] at otherExact
    | unclosed literal' code' =>
      obtain ⟨rfl, rfl⟩ := Text.append_cons_inj plain otherExact.1 same
      rfl
    | braced literal' code' following' =>
      obtain ⟨plain', balanced, -⟩ := otherExact
      obtain ⟨-, whole⟩ := Text.append_cons_inj plain plain' same
      exact absurd whole (never _ _ balanced)
  | braced literal code following ih =>
    obtain ⟨plain, balanced, later⟩ := isExact
    cases other with
    | last literal' =>
      obtain rfl : literal ++ '\x7b' :: (code ++ '\x7d' :: following.text) = literal' := same
      simp [Exact] at otherExact
    | unclosed literal' code' =>
      obtain ⟨plain', -, -, never⟩ := otherExact
      obtain ⟨-, whole⟩ := Text.append_cons_inj plain plain' same
      exact absurd whole.symm (never _ _ balanced)
    | braced literal' code' following' =>
      obtain ⟨plain', balanced', later'⟩ := otherExact
      obtain ⟨rfl, whole⟩ := Text.append_cons_inj plain plain' same
      obtain ⟨rfl, rest⟩ := balanced.append_inj balanced' whole
      rw [ih later later' rest]

theorem eq_last_of_text {parts : Parts} (empty : parts.text = []) : parts = last [] := by
  cases parts <;> simp_all [text]

@[simp] theorem prepend_nil (parts : Parts) : parts.prepend [] = parts := by
  cases parts <;> rfl

@[simp] theorem prepend_prepend (before after : List Char) (parts : Parts) :
    (parts.prepend after).prepend before = parts.prepend (before ++ after) := by
  cases parts <;> simp [prepend]

theorem text_prepend (before : List Char) (parts : Parts) :
    (parts.prepend before).text = before ++ parts.text := by
  cases parts <;> simp [prepend, text]

theorem Exact.prepend {mode : Mode} {rest : List Char} {parts : Parts} {c : Char}
    (isExact : parts.Exact mode rest) (plain : c ≠ '\x7b') :
    (parts.prepend [c]).Exact mode rest := by
  cases parts <;> simpa [Parts.prepend, Exact, plain.symm] using isExact

/-- A character before the parts goes to the first literal. -/
theorem exists_literals_prepend (parts : Parts) :
    ∃ first more, parts.literals = first :: more ∧ first <+: parts.text ∧
      ∀ before, (parts.prepend before).literals = (before ++ first) :: more := by
  cases parts with
  | last literal => exact ⟨literal, [], rfl, by simp [text], fun _ => rfl⟩
  | unclosed literal code => exact ⟨literal, [], rfl, by simp [text], fun _ => rfl⟩
  | braced literal code following =>
    exact ⟨literal, following.literals, rfl, by simp [text], fun _ => rfl⟩

/-- The parts are the text between two places, cut at its braces, and no tag begins in a
literal. -/
structure Cuts (mode : Mode) (cur stop : Cursor) (parts : Parts) : Prop where
  text : parts.text = cur.between stop
  isExact : parts.Exact mode stop.rest
  untagged : ∀ literal ∈ parts.literals, ∀ c, Name.isStart c = true → ¬ ['<', c] <:+: literal

end Parts

/-- A text in which no comment begins. -/
def Uncommented (text : List Char) : Prop := '/' ∉ text ∧ ¬ ['<', '!'] <:+: text

theorem Uncommented.between {cur later stop : Cursor} (plain : Uncommented (cur.between stop))
    (first : cur.Reaches later) (second : later.Reaches stop) :
    Uncommented (later.between stop) := by
  rw [← first.between_append second] at plain
  exact ⟨fun mem => plain.1 (by simp [mem]),
    fun inside => plain.2 (inside.trans (List.suffix_append _ _).isInfix)⟩

theorem Uncommented.code {cur stop : Cursor} {more : List Char}
    (plain : Uncommented (cur.between stop)) (begins : cur.rest = '\x7b' :: more)
    (ahead : (Group.read cur).cursor.Reaches stop) : '/' ∉ (Group.read cur).code := by
  have text := (Group.reaches_cursor cur).between_append ahead
  rw [Group.between_read begins] at text
  intro mem
  exact plain.1 (by simp [← text, mem])

/-- In such a text no comment between tags was read past. -/
theorem Uncommented.not_mark {cur stop : Cursor} {more : List Char}
    (plain : Uncommented (cur.between stop)) (begins : cur.rest = '<' :: '!' :: more) :
    ¬ (cur.advance 2).Reaches stop := by
  intro ahead
  rw [← (Cursor.Reaches.advance 2 cur).between_append ahead, Cursor.between_advance, begins]
    at plain
  exact plain.2 (List.prefix_append _ _).isInfix

theorem Uncommented.not_slash {cur stop : Cursor} {more : List Char}
    (plain : Uncommented (cur.between stop)) (begins : cur.rest = '/' :: more) :
    ¬ cur.next.Reaches stop := by
  intro ahead
  rw [Cursor.between_cons begins ahead] at plain
  exact plain.1 List.mem_cons_self

/-! ## Reading -/

theorem tagBegins_of_ne {c : Char} (other : c ≠ '<') (rest : List Char) :
    tagBegins (c :: rest) = false := by
  rw [Bool.eq_false_iff]
  intro begins
  obtain ⟨d, more, same⟩ := exists_of_tagBegins begins
  exact other (List.cons.inj same).1

/-- The first characters of a text in which something begins. -/
def Lead.Shows : Lead → List Char → Prop
  | stop, _ => True
  | markupComment, rest | declaration, rest => ∃ more, rest = '<' :: '!' :: more
  | group, rest => ∃ more, rest = '\x7b' :: more
  | blockComment, rest | lineComment, rest => ∃ more, rest = '/' :: more
  | character c, rest => ∃ more, rest = c :: more ∧ c ≠ '\x7b' ∧ tagBegins rest = false

theorem shows_of_lead {previous : Option Char} {rest : List Char} {begins : Lead}
    (h : lead previous rest = begins) : begins.Shows rest := by
  subst h
  unfold lead
  split
  · trivial
  · next following =>
    split
    · next comment =>
      obtain ⟨more, rfl⟩ := List.isPrefixOf_iff_prefix.1 comment
      exact ⟨_, rfl⟩
    · split
      · next mark =>
        obtain ⟨more, rfl⟩ := List.head?_eq_some_iff.1 mark
        exact ⟨more, rfl⟩
      · split
        · trivial
        · next untagged => exact ⟨following, rfl, by decide, by simpa using untagged⟩
  · exact ⟨_, rfl⟩
  · next following =>
    split
    · exact ⟨following, rfl⟩
    · split
      · exact ⟨following, rfl⟩
      · exact ⟨following, rfl, by decide, rfl⟩
  · next c following notTag notGroup _ =>
    exact ⟨following, rfl, notGroup, tagBegins_of_ne notTag following⟩

theorem reverse_flush (pending : List Char) (segments : List Segment) :
    (flush pending segments).reverse = segments.reverse ++ literalSegments pending.reverse := by
  unfold flush literalSegments
  cases pending with
  | nil => simp
  | cons c pending =>
    cases Literal.normalize (c :: pending).reverse <;> simp_all

section

variable {mode : Mode} {cur stop : Cursor} {parts : Parts} {more : List Char}

theorem Parts.Cuts.refl (mode : Mode) (stop : Cursor) : (Parts.last []).Cuts mode stop stop where
  text := (Cursor.between_self stop).symm
  isExact := by simp [Parts.Exact]
  untagged := by simp [Parts.literals]

/-- A character of literal text goes before the parts of the text after it. -/
theorem Parts.Cuts.character {c : Char} (begins : cur.rest = c :: more) (plain : c ≠ '\x7b')
    (untagged : tagBegins cur.rest = false) (ahead : cur.next.Reaches stop)
    (cuts : parts.Cuts mode cur.next stop) : (parts.prepend [c]).Cuts mode cur stop where
  text := by rw [text_prepend, cuts.text, Cursor.between_cons begins ahead]; rfl
  isExact := cuts.isExact.prepend plain
  untagged := by
    obtain ⟨first, others, literals, start, prepended⟩ := parts.exists_literals_prepend
    have later := cuts.untagged
    rw [literals] at later
    rw [prepended]
    intro literal mem d isStart tag
    obtain rfl | mem := List.mem_cons.1 mem
    · obtain ⟨less, tag⟩ | inside := List.infix_cons_iff.1 tag
      · obtain ⟨rfl, rfl⟩ : '<' = c ∧ d :: less = first := by simpa using tag
        obtain ⟨others, whole⟩ := start
        have left := ahead.between_append_rest
        rw [← cuts.text, ← whole, Cursor.rest_next begins] at left
        simp [begins, ← left, tagBegins, isStart] at untagged
      · exact later first List.mem_cons_self d isStart inside
    · exact later literal (List.mem_cons_of_mem _ mem) d isStart tag

/-- A group goes before the parts of the text after it. -/
theorem Parts.Cuts.group (plain : Uncommented (cur.between stop))
    (begins : cur.rest = '\x7b' :: more)
    (whole : ¬ ((Group.read cur).closed = false ∧ mode = .strict))
    (ahead : (Group.read cur).cursor.Reaches stop)
    (cuts : parts.Cuts mode (Group.read cur).cursor stop) :
    ∃ grown : Parts, grown.Cuts mode cur stop ∧ ∀ before, (grown.prepend before).segments =
      literalSegments before ++ ((if isCommentOnly (Group.read cur).code then []
        else [.expression (Group.read cur).trimmed]) ++ parts.segments) := by
  have text := (Group.reaches_cursor cur).between_append ahead
  rw [Group.between_read begins, ← cuts.text] at text
  have shown := codeSegments_eq (plain.code begins ahead)
  rw [← Group.trimmed] at shown
  rw [← shown]
  obtain ⟨code, after, rfl, balanced, read⟩ | ⟨never, read⟩ := Group.read_cases begins
  · refine ⟨.braced [] (Group.read cur).code parts, ⟨?_, ?_, ?_⟩, fun before => ?_⟩
    · simpa [Parts.text, read] using text
    · simpa [Parts.Exact, read] using ⟨balanced, cuts.isExact⟩
    · simpa [Parts.literals] using cuts.untagged
    · simp [Parts.prepend, Parts.segments]
  · -- Nothing is left after such a group, so its code is the last of the text.
    have left := ahead.between_append_rest
    rw [Group.rest_of_unclosed (by rw [read]), ← cuts.text, List.append_eq_nil_iff] at left
    obtain rfl := Parts.eq_last_of_text left.1
    have lenient : mode = .lenient := by
      cases mode with
      | lenient => rfl
      | strict => simp [read] at whole
    refine ⟨.unclosed [] (Group.read cur).code, ⟨?_, ?_, ?_⟩, fun before => ?_⟩
    · simpa [Parts.text, read] using text
    · simpa [Parts.Exact, read, lenient, left.2] using never
    · simp [Parts.literals]
    · simp [Parts.prepend, Parts.segments, literalSegments]

/-- Reading content without comments cuts it at its braces, after the literal text `pending` and the
segments before that. -/
theorem exists_cuts {pending : List Char} {segments result : List Segment}
    (h : readFrom mode pending segments cur = .ok (result, stop))
    (plain : Uncommented (cur.between stop)) :
    ∃ parts : Parts, parts.Cuts mode cur stop ∧
      result = segments.reverse ++ (parts.prepend pending.reverse).segments := by
  fun_induction readFrom mode pending segments cur with
  | case1 pending segments cur stops =>
    cases h
    refine ⟨.last [], .refl mode stop, ?_⟩
    simp [reverse_flush, Parts.prepend, Parts.segments]
  | case2 pending segments cur comment ih =>
    obtain ⟨more, begins⟩ := shows_of_lead comment
    have beyond : (cur.advance 2).Reaches (cur.advance 4) := ⟨2, by simp⟩
    exact absurd ((beyond.trans (Cursor.reaches_read _ _ _)).trans (reaches_readFrom h))
      (plain.not_mark begins)
  | case3 pending segments cur declaration ih =>
    obtain ⟨more, begins⟩ := shows_of_lead declaration
    have beyond := Cursor.reaches_readPast_next (Cursor.rest_next begins) (by decide : '!' ≠ '>')
    rw [Cursor.next, Cursor.next_advance] at beyond
    exact absurd (beyond.trans (reaches_readFrom h)) (plain.not_mark begins)
  | case4 => contradiction
  | case5 pending segments cur opens group whole flushed comment ih =>
    obtain ⟨more, begins⟩ := shows_of_lead opens
    have ahead := reaches_readFrom h
    obtain ⟨parts, cuts, rfl⟩ := ih h (plain.between (Group.reaches_cursor cur) ahead)
    obtain ⟨grown, cuts', shown⟩ := cuts.group plain begins whole ahead
    rw [if_pos comment] at shown
    exact ⟨grown, cuts', by simp [shown, flushed, reverse_flush]⟩
  | case6 pending segments cur opens group whole flushed comment ih =>
    obtain ⟨more, begins⟩ := shows_of_lead opens
    have ahead := reaches_readFrom h
    obtain ⟨parts, cuts, rfl⟩ := ih h (plain.between (Group.reaches_cursor cur) ahead)
    obtain ⟨grown, cuts', shown⟩ := cuts.group plain begins whole ahead
    rw [if_neg comment] at shown
    exact ⟨grown, cuts', by simp [shown, flushed, group, reverse_flush]⟩
  | case7 pending segments cur comment ih =>
    obtain ⟨more, begins⟩ := shows_of_lead comment
    have beyond : cur.next.Reaches (cur.advance 2) := ⟨1, (Cursor.next_advance 1 cur).symm⟩
    exact absurd ((beyond.trans (Cursor.reaches_read _ _ _)).trans (reaches_readFrom h))
      (plain.not_slash begins)
  | case8 pending segments cur comment line ih =>
    obtain ⟨more, begins⟩ := shows_of_lead comment
    exact absurd ((Cursor.reaches_read _ _ _).trans (reaches_readFrom h)) (plain.not_slash begins)
  | case9 pending segments cur c character ih =>
    obtain ⟨more, begins, brace, untagged⟩ := shows_of_lead character
    have ahead := reaches_readFrom h
    obtain ⟨parts, cuts, rfl⟩ := ih h (plain.between cur.reaches_next ahead)
    exact ⟨parts.prepend [c], cuts.character begins brace untagged ahead, by simp⟩

/-- **Content is cut exactly at its braces, and nothing is lost.**  Reading stops at the end of the
text or where a tag begins.  If no comment begins in what was read, there is one way to cut that at
its braces, no tag begins in a literal of it, and the segments are what its parts are shown as, in
order. -/
theorem read_cut {segments : List Segment} (h : read mode cur = .ok (segments, stop)) :
    cur.between stop ++ stop.rest = cur.rest ∧
      (stop.rest = [] ∨
        ∃ c more, stop.rest = '<' :: c :: more ∧ (c = '/' ∨ Name.isStart c = true)) ∧
      (Uncommented (cur.between stop) → ∃ parts : Parts, parts.Cuts mode cur stop ∧
        (∀ other : Parts, other.text = cur.between stop → other.Exact mode stop.rest →
          other = parts) ∧
        segments = parts.segments) := by
  refine ⟨(reaches_read h).between_append_rest, ?_, fun plain => ?_⟩
  · by_cases ended : stop.rest = []
    · exact .inl ended
    · have begins := tagBegins_of_read h ended
      obtain ⟨c, more, left⟩ := exists_of_tagBegins begins
      exact .inr ⟨c, more, left, by simpa [left, tagBegins] using begins⟩
  · obtain ⟨parts, cuts, shown⟩ := exists_cuts h plain
    refine ⟨parts, cuts, fun other text isExact => ?_, by simpa using shown⟩
    exact Parts.unique isExact cuts.isExact (text.trans cuts.text.symm)

end

/-- A stray brace, a `<` that begins no tag, groups in and after another, and one that is never
closed. -/
theorem read_cut_stray :
    let cur := Cursor.ofList "a\x7d <\x7bx\x7by\x7d\x7d\x7b \x7d b\n\x7bz".toList
    let segments : List Segment :=
      [.literal "a\x7d <", .expression "x\x7by\x7d", .literal " b", .expression "z"]
    read .lenient cur = .ok (segments, cur.toEnd) ∧ Uncommented (cur.between cur.toEnd) ∧
      ∃ parts : Parts, parts.Cuts .lenient cur cur.toEnd ∧ segments = parts.segments := by
  intro cur segments
  have computed : (read .lenient cur).toOption = some (segments, cur.toEnd) := by decide +kernel
  have ok := Outcome.eq_ok_of_toOption computed
  have plain : Uncommented (cur.between cur.toEnd) := ⟨by decide +kernel, by decide +kernel⟩
  obtain ⟨-, -, cut⟩ := read_cut ok
  obtain ⟨parts, cuts, -, shown⟩ := cut plain
  exact ⟨ok, plain, parts, cuts, shown⟩

end Content

end InlineMarkup
