import InlineMarkup.Proofs.Calls
import InlineMarkup.Proofs.RoundTrip
import InlineMarkup.Proofs.Seeking

/-!
# InlineMarkup.Proofs.Closing

Code that does not run on into what is written after it.  A text is closed if a bracket
after it is a token of its own, and not part of a comment or of a string (`Closed`).

* `Place` tells a place in code by the text before it, one character after the other, and
  `closed_iff` says that a text is closed if it ends at a place in plain code;
* the white space around code is dropped where it is written, and `Closed.trim` says what
  that does: only a line feed at the end of code may be what ends a comment or a string;
* `rendering_closed_iff` puts the two together for code that stands alone in markup, and
  `rendering_open` is code that is closed until the line feed after it is dropped.
-/

namespace InlineMarkup

open Text (Blank)
open Unicode (isSpace)

namespace Host

/-! ## Places in code -/

/-- What a string can be quoted with. -/
abbrev Quote := { c : Char // isQuote c = true }

/-- Where a place in code lies. -/
inductive Place where
  /-- In plain code. -/
  | code
  /-- After a slash in plain code, where a comment may begin. -/
  | slash
  /-- In a string. -/
  | quoted (quote : Quote)
  /-- After a backslash in a string. -/
  | guarded (quote : Quote)
  /-- In a comment to the end of a line. -/
  | line
  /-- In a comment to a mark. -/
  | block
  /-- After a star in such a comment. -/
  | star
deriving DecidableEq

namespace Place

/-- The place after a character that begins a token. -/
def start (c : Char) : Place :=
  if quote : isQuote c = true then quoted ⟨c, quote⟩ else if c = '/' then slash else code

/-- The place after a further character. -/
def step : Place → Char → Place
  | code, c => start c
  | slash, c => if c = '/' then line else if c = '*' then block else start c
  | quoted quote, c =>
    if c = '\\' then guarded quote
    else if c = quote.1 ∨ c = '\n' ∧ quote.1 ≠ '\x60' then code
    else quoted quote
  | guarded quote, _ => quoted quote
  | line, c => if c = '\n' then code else line
  | block, c => if c = '*' then star else block
  | star, c => if c = '/' then code else if c = '*' then star else block

/-- The place after a text. -/
def walk (place : Place) (text : List Char) : Place := text.foldl step place

/-- Whether a place lies in plain code. -/
def isCode : Place → Bool
  | code | slash => true
  | quoted _ | guarded _ | line | block | star => false

@[simp] theorem walk_nil (place : Place) : place.walk [] = place := rfl

@[simp] theorem walk_cons (place : Place) (c : Char) (text : List Char) :
    place.walk (c :: text) = (place.step c).walk text := rfl

@[simp] theorem walk_append (place : Place) (first last : List Char) :
    place.walk (first ++ last) = (place.walk first).walk last :=
  List.foldl_append

/-! ## Places in strings and comments -/

/-- The places inside a text that a character may end: `inside` tells them by what stands
before them. -/
structure Inside (ends : List Char → Char → Bool) (inside : List Char → Place) : Prop where
  stays (before : List Char) (c : Char) : ends before c = false →
    (inside before).step c = inside (before ++ [c])
  leaves (before : List Char) (c : Char) : ends before c = true → (inside before).step c = code
  apart (before : List Char) : (inside before).isCode = false

theorem inside_string (quote : Quote) :
    Inside (stringEnds quote.1)
      fun before => if escaped before then .guarded quote else .quoted quote := by
  have slash : quote.1 ≠ '\\' := by
    intro same
    have quoted := quote.2
    rw [same] at quoted
    contradiction
  refine ⟨fun before c ends => ?_, fun before c ends => ?_, fun before => ?_⟩
  · rw [escaped_append]
    cases guarded : escaped before with
    | true => simp [step]
    | false =>
      by_cases backslash : c = '\\'
      · simp [step, backslash]
      · have other : ¬ (c = quote.1 ∨ c = '\n' ∧ quote.1 ≠ '\x60') := by
          simpa [stringEnds, guarded] using ends
        simpa [step, backslash] using other
  · obtain ⟨target, free⟩ :
        (c = quote.1 ∨ c = '\n' ∧ quote.1 ≠ '\x60') ∧ escaped before = false := by
      simpa [stringEnds] using ends
    have other : c ≠ '\\' := by
      rintro rfl
      obtain same | ⟨same, -⟩ := target
      · exact slash same.symm
      · contradiction
    simp [step, free, other, target]
  · split
    · rfl
    · rfl

theorem inside_line : Inside lineEnds fun _ => .line where
  stays before c ends := by
    have other : c ≠ '\n' := by simpa [lineEnds] using ends
    simp [step, other]
  leaves before c ends := by
    obtain rfl : c = '\n' := by simpa [lineEnds] using ends
    rfl
  apart _ := rfl

theorem inside_block :
    Inside blockEnds fun before => if before.getLast? = some '*' then .star else .block := by
  refine ⟨fun before c ends => ?_, fun before c ends => ?_, fun before => ?_⟩
  · simp only [List.getLast?_concat, Option.some.injEq]
    split
    · next star =>
      have other : c ≠ '/' := by simpa [blockEnds, star] using ends
      simp only [step, if_neg other]
    · rfl
  · obtain ⟨rfl, star⟩ : c = '/' ∧ before.getLast? = some '*' := by
      simpa [blockEnds] using ends
    simp [star, step]
  · split
    · rfl
    · rfl

namespace Inside

variable {ends : List Char → Char → Bool} {inside : List Char → Place} {body rest : List Char}

theorem walk_unended (places : Inside ends inside) (unended : Unended ends body) :
    (inside []).walk body = inside body := by
  have along : ∀ (body before : List Char), Unended (fun inner => ends (before ++ inner)) body →
      (inside before).walk body = inside (before ++ body) := by
    intro body
    induction body with
    | nil => simp
    | cons c body ih =>
      intro before unended
      obtain ⟨first, following⟩ := unended_cons.1 unended
      rw [List.append_nil] at first
      rw [walk_cons, places.stays before c first, ih (before ++ [c]) (by simpa using following)]
      simp
  exact along body [] unended

/-- What follows such a text is in plain code. -/
theorem walk_through (places : Inside ends inside) (through : Through ends body rest)
    (more : rest ≠ []) : (inside []).walk body = code := by
  obtain ⟨before, c, rfl, ended, unended⟩ | ⟨-, nothing⟩ := through
  · rw [walk_append, places.walk_unended unended, walk_cons, walk_nil, places.leaves before c ended]
  · contradiction

/-- Its last character is not. -/
theorem walk_last {c : Char} (places : Inside ends inside)
    (through : Through ends (body ++ [c]) rest) : ((inside []).walk body).isCode = false := by
  have unended : Unended ends body := by
    obtain ⟨before, d, same, -, unended⟩ | ⟨unended, -⟩ := through
    · obtain ⟨rfl, -⟩ := List.append_inj' same rfl
      exact unended
    · intro before d after same
      exact unended before d (after ++ [c]) (by rw [same]; simp)
  rw [places.walk_unended unended]
  exact places.apart body

end Inside

end Place

/-! ## Closed texts -/

/-- A bracket after the text is a token of its own. -/
def Closed (text : List Char) : Prop :=
  ∃ tokens, Cut (text ++ [')']) tokens ∧ tokens.getLast? = some (.mark ')')

/-- A place in plain code where a token begins: no comment is begun there by a slash. -/
structure Place.Fresh (place : Place) (text : List Char) : Prop where
  code : place.isCode = true
  apart : place = .slash → text.head? ≠ some '/' ∧ text.head? ≠ some '*'

/-- It may as well be any place in plain code. -/
theorem Place.Fresh.isCode_walk {place : Place} {text rest : List Char}
    (fresh : place.Fresh (text ++ rest)) :
    (place.walk text).isCode = (Place.code.walk text).isCode := by
  cases text with
  | nil => exact fresh.code
  | cons c text =>
    cases place with
    | code => rfl
    | slash =>
      obtain ⟨line, block⟩ := fresh.apart rfl
      have line : c ≠ '/' := by simpa using line
      have block : c ≠ '*' := by simpa using block
      simp [step, line, block]
    | quoted | guarded | line | block | star => exact absurd fresh.code Bool.false_ne_true

theorem start_of_plain {c : Char} (plain : isQuote c = false ∧ c ≠ '/' ∧ c ≠ '<') :
    Place.start c = .code := by
  simp [Place.start, plain]

theorem walk_of_plain {run : List Char}
    (plain : ∀ c ∈ run, isQuote c = false ∧ c ≠ '/' ∧ c ≠ '<') : Place.code.walk run = .code := by
  induction run with
  | nil => rfl
  | cons c run ih =>
    obtain ⟨first, following⟩ := List.forall_mem_cons.1 plain
    rw [Place.walk_cons, Place.step, start_of_plain first, ih following]

/-- A token leads from plain code to plain code, if something follows it. -/
theorem Token.Leads.fresh {token : Token} {rest : List Char} (leads : token.Leads rest)
    (more : rest ≠ []) : (Place.code.walk token.text).Fresh rest := by
  have plain {place : Place} (same : place = .code) : place.Fresh rest := by
    subst same
    exact ⟨rfl, fun h => by contradiction⟩
  cases token with
  | string quote body =>
    refine plain ?_
    rw [text, Place.walk_cons, Place.step, Place.start, dif_pos leads.1]
    exact (Place.inside_string ⟨quote, leads.1⟩).walk_through leads.2 more
  | lineComment body => exact plain (Place.inside_line.walk_through leads more)
  | blockComment body => exact plain (Place.inside_block.walk_through leads more)
  | space run => exact plain (walk_of_plain fun c mem => plain_of_isSpace (leads.all c mem))
  | word run => exact plain (walk_of_plain fun c mem => plain_of_isPart (leads.all c mem))
  | mark c =>
    obtain ⟨unquoted, -, -, comment⟩ := leads
    by_cases slash : c = '/'
    · subst slash
      exact ⟨rfl, fun _ => by simpa using comment⟩
    · exact plain (by simp [text, Place.step, Place.start, unquoted, slash])

theorem exists_of_append_bracket (first : List Char) {body before : List Char}
    (h : first ++ body = before ++ [')']) (other : ')' ∉ first) :
    ∃ inner, before = first ++ inner ∧ body = inner ++ [')'] := by
  obtain ⟨inner, same, split⟩ | ⟨between, rfl, split⟩ := List.append_eq_append_iff.1 h
  · exact ⟨inner, same, split⟩
  · cases between with
    | nil => exact ⟨[], by simp, split.symm⟩
    | cons c between =>
      obtain ⟨rfl, -⟩ := List.cons.inj split
      simp at other

/-- A token that ends the text with a bracket is the bracket, or it began before it. -/
theorem Token.Leads.closes {token : Token} {before : List Char} (leads : token.Leads [])
    (h : token.text = before ++ [')']) :
    token = .mark ')' ↔ (Place.code.walk before).isCode = true := by
  have bracket : ')' ∈ token.text := by simp [h]
  cases token with
  | string quote body =>
    obtain ⟨quoted, through⟩ := leads
    have other : ')' ∉ [quote] := by
      rw [List.mem_singleton]
      rintro rfl
      contradiction
    obtain ⟨inner, rfl, rfl⟩ := exists_of_append_bracket [quote] h other
    have begun : Place.code.walk [quote] = .quoted ⟨quote, quoted⟩ := dif_pos quoted
    have inside := (Place.inside_string ⟨quote, quoted⟩).walk_last through
    refine iff_of_false (by simp) ?_
    rw [Place.walk_append, begun]
    exact Bool.eq_false_iff.1 inside
  | lineComment body =>
    obtain ⟨inner, rfl, rfl⟩ := exists_of_append_bracket ['/', '/'] h (by decide)
    have inside := Place.inside_line.walk_last leads
    exact iff_of_false (by simp) (Bool.eq_false_iff.1 inside)
  | blockComment body =>
    obtain ⟨inner, rfl, rfl⟩ := exists_of_append_bracket ['/', '*'] h (by decide)
    have inside := Place.inside_block.walk_last leads
    exact iff_of_false (by simp) (Bool.eq_false_iff.1 inside)
  | space run => exact absurd (leads.all _ bracket) (by decide)
  | word run => exact absurd (leads.all _ bracket) (by decide +kernel)
  | mark c =>
    obtain ⟨rfl, rfl⟩ : before = [] ∧ c = ')' := by
      cases before with
      | nil => simpa [text] using h
      | cons d before => simp [text] at h
    simp [Place.isCode]

/-- The last of the tokens that a text with a bracket after it is cut into, by induction on
the tokens: `place` is where the first of them begins. -/
theorem getLast?_tokens {tokens : List Token} {text : List Char} {place : Place}
    (proper : Proper tokens) (h : textOf tokens = text ++ [')'])
    (fresh : place.Fresh (text ++ [')'])) :
    tokens.getLast? = some (.mark ')') ↔ (place.walk text).isCode = true := by
  induction tokens generalizing text place with
  | nil => simp at h
  | cons token tokens ih =>
    obtain ⟨leads, proper⟩ := proper
    cases tokens with
    | nil =>
      rw [textOf_cons, textOf_nil, List.append_nil] at h
      rw [List.getLast?_singleton, Option.some.injEq, leads.closes h, fresh.isCode_walk]
    | cons next tokens =>
      have more : textOf (next :: tokens) ≠ [] := by
        rw [textOf_cons]
        exact List.append_ne_nil_of_left_ne_nil proper.1.text_ne_nil _
      obtain ⟨after, rfl, following⟩ : ∃ after, text = token.text ++ after ∧
          textOf (next :: tokens) = after ++ [')'] := by
        obtain ⟨after, same, split⟩ | ⟨between, whole, split⟩ := List.append_eq_append_iff.1 h
        · exact ⟨after, same, split⟩
        · obtain ⟨rfl, last⟩ | ⟨-, empty⟩ := List.singleton_eq_append_iff.1 split
          · exact ⟨[], by simpa using whole.symm, last⟩
          · contradiction
      have onward := leads.fresh more
      rw [following] at onward
      rw [List.getLast?_cons_cons, ih proper following onward, fresh.isCode_walk, Place.walk_append]

/-- **A text is closed if it ends in plain code.** -/
theorem closed_iff {text : List Char} : Closed text ↔ (Place.code.walk text).isCode = true := by
  have fresh : Place.code.Fresh (text ++ [')']) := ⟨rfl, fun h => by contradiction⟩
  constructor
  · rintro ⟨tokens, cut, last⟩
    exact (getLast?_tokens cut.proper cut.whole fresh).1 last
  · intro code
    obtain ⟨tokens, cut⟩ := exists_cut (text ++ [')'])
    exact ⟨tokens, cut, (getLast?_tokens cut.proper cut.whole fresh).2 code⟩

instance (text : List Char) : Decidable (Closed text) := decidable_of_iff' _ closed_iff

/-! ## White space around code -/

theorem walk_blank {text : List Char} (blank : Blank text) : Place.code.walk text = .code :=
  walk_of_plain fun c mem => plain_of_isSpace (blank c mem)

/-- A character that neither begins nor ends a string or a comment. -/
def Inert (c : Char) : Prop := isQuote c = false ∧ c ≠ '/' ∧ c ≠ '*' ∧ c ≠ '\n'

instance (c : Char) : Decidable (Inert c) :=
  inferInstanceAs (Decidable (isQuote c = false ∧ c ≠ '/' ∧ c ≠ '*' ∧ c ≠ '\n'))

theorem Inert.isCode_step {c : Char} (inert : Inert c) (place : Place) :
    (place.step c).isCode = place.isCode := by
  obtain ⟨unquoted, slash, star, feed⟩ := inert
  cases place with
  | code => simp [Place.step, Place.start, Place.isCode, unquoted, slash]
  | slash => simp [Place.step, Place.start, Place.isCode, unquoted, slash, star]
  | quoted quote =>
    have other : c ≠ quote.1 := by
      rintro rfl
      exact Bool.false_ne_true (unquoted.symm.trans quote.2)
    by_cases backslash : c = '\\'
    · simp [Place.step, Place.isCode, backslash]
    · simp [Place.step, Place.isCode, backslash, other, feed]
  | guarded quote => rfl
  | line => simp [Place.step, Place.isCode, feed]
  | block => simp [Place.step, Place.isCode, star]
  | star => simp [Place.step, Place.isCode, star, slash]

/-- Such characters end neither a string nor a comment that was begun before them. -/
theorem isCode_walk {text : List Char} (inert : ∀ c ∈ text, Inert c) (place : Place) :
    (place.walk text).isCode = place.isCode := by
  induction text generalizing place with
  | nil => rfl
  | cons c text ih =>
    obtain ⟨first, following⟩ := List.forall_mem_cons.1 inert
    rw [Place.walk_cons, ih following, first.isCode_step]

/-- The white space that a text ends with. -/
def trailing (text : List Char) : List Char := (text.reverse.takeWhile isSpace).reverse

/-- Trimming keeps a text closed, unless a line feed goes with the white space at its end. -/
theorem Closed.trim {text : List Char} (closed : Closed text) (feed : '\n' ∉ trailing text) :
    Closed (Text.trim text) := by
  obtain ⟨left, right, opening, closing, whole⟩ := Text.exists_blank_trim text
  have inside : right ⊆ trailing text := by
    rw [trailing, whole, ← List.append_assoc, List.reverse_append,
      List.takeWhile_append_of_pos closing.reverse, List.reverse_append, List.reverse_reverse]
    exact List.subset_append_right _ right
  have inert : ∀ c ∈ right, Inert c := by
    intro c mem
    have space := closing c mem
    refine ⟨(plain_of_isSpace space).1, ne_of_isSpace space (by decide),
      ne_of_isSpace space (by decide), ?_⟩
    rintro rfl
    exact feed (inside mem)
  rw [closed_iff] at closed ⊢
  rw [whole, Place.walk_append, walk_blank opening, Place.walk_append, isCode_walk inert] at closed
  exact closed

/-! ## Markup in trimmed code -/

/-- What is found depends on the code left only, if no word goes on at the place. -/
theorem isSome_seek {cur cur' : Cursor} (fits : Fits .empty [] cur) (fits' : Fits .empty [] cur')
    (same : cur.rest = cur'.rest) : (seek cur).isSome = (seek cur').isSome := by
  obtain ⟨tokens, cut⟩ := exists_cut cur.rest
  have found := seekFrom_tokens fits cut.proper cut.whole.symm
  have found' := seekFrom_tokens fits' cut.proper (cut.whole.trans same).symm
  obtain ⟨before, after, first, some⟩ | ⟨none, missing⟩ := found
  · obtain ⟨before', after', first', some'⟩ | ⟨none', -⟩ := found'
    · rw [seek, seek, some, some']
      rfl
    · exact absurd first.opens (none' before after first.here)
  · obtain ⟨before', after', first', -⟩ | ⟨-, missing'⟩ := found'
    · exact absurd first'.opens (none before' after' first'.here)
    · rw [seek, seek, missing, missing']

/-- Trimming brings no markup about. -/
theorem containsMarkup_trim {code : List Char} (none : containsMarkup code = false) :
    containsMarkup (Text.trim code) = false := by
  obtain ⟨left, right, opening, -, whole⟩ := Text.exists_blank_trim code
  rw [Bool.eq_false_iff] at none ⊢
  refine mt (fun found => ?_) none
  -- What is found in the trimmed code is found with `right` after it, and then with `left`
  -- before it.
  obtain ⟨start, found⟩ := Option.isSome_iff_exists.1 found
  have window : Cursor.Window right (.ofList (Text.trim code))
      (.ofList (Text.trim code ++ right)) := ⟨rfl, .inl rfl⟩
  obtain ⟨start', found', -⟩ := seekFrom_window _ window found
  have passed : (Cursor.ofList code).rest = left ++ (Text.trim code ++ right) := whole
  have fits : Fits .empty [] ((Cursor.ofList code).advance left.length) := by
    refine ⟨rfl, fun previous => ?_⟩
    rw [Cursor.previous?_advance, passed, List.take_left] at previous
    obtain ⟨c, last, part⟩ : ∃ c, left.getLast? = some c ∧ Name.isPart c = true := by
      simpa [Cursor.ofList, Cursor.previous?, Option.any_eq_true] using previous
    have space := opening c (List.mem_of_getLast? last)
    rw [Name.not_isSpace_of_isPart part] at space
    contradiction
  have equal := isSome_seek fits (.start (Text.trim code ++ right)) (Cursor.rest_of_append passed)
  rw [containsMarkup, seek, seekFrom_blank opening passed]
  rw [seek, seek, found'] at equal
  exact equal

end Host

/-! ## Code that stands alone in markup -/

open Host (Closed trailing Place)

/-- Braces pair up without the white space around them. -/
theorem Text.Balanced.trim {code : List Char} (balanced : Balanced code) :
    Balanced (Text.trim code) := by
  obtain ⟨left, right, opening, closing, whole⟩ := exists_blank_trim code
  have none {space : List Char} (blank : Blank space) :
      space.count '\x7b' = 0 ∧ space.count '\x7d' = 0 :=
    ⟨List.count_eq_zero.2 (blank.not_mem (by decide)),
      List.count_eq_zero.2 (blank.not_mem (by decide))⟩
  obtain ⟨total, never⟩ := balanced
  obtain ⟨leftOpen, leftClose⟩ := none opening
  obtain ⟨rightOpen, rightClose⟩ := none closing
  constructor
  · rw [whole] at total
    simpa [List.count_append, leftOpen, leftClose, rightOpen, rightClose] using total
  · intro n
    obtain ⟨tailOpen, tailClose⟩ := none fun c mem =>
      closing c (List.mem_of_mem_take (i := n - (Text.trim code).length) mem)
    have upTo := never (left.length + n)
    rw [whole, List.take_length_add_append, List.take_append] at upTo
    simpa [List.count_append, leftOpen, leftClose, tailOpen, tailClose] using upTo

/-- Code that braces can hold and that has nothing in it but code. -/
theorem plainCode_trim {code : String} (balanced : Text.Balanced code.toList)
    (plain : Host.containsMarkup code.toList = false) :
    PlainCode (String.ofList (Text.trim code.toList)) where
  trimmed := by rw [String.toList_ofList, Text.trim_trim]
  balanced := by
    rw [String.toList_ofList]
    exact balanced.trim
  noMarkup := by
    rw [String.toList_ofList]
    exact Host.containsMarkup_trim plain

/-- A paragraph with code for its content. -/
def withChild (code : String) : Node := .tag .element "p" [] [.text [.expression code]] false

/-- A paragraph with code for the value of an attribute. -/
def withAttribute (code : String) : Node := .tag .element "p" [("a", .expression code)] [] false

section

variable {code : String}

theorem wellFormed_withChild (plain : PlainCode code) (shown : isCommentOnly code.toList = false) :
    (withChild code).WellFormed := by
  have element : Descent.kindOf "p" = .element := by decide +kernel
  have text : Node.WellFormed (.text [.expression code]) :=
    .text (by simp) (by simpa using ⟨plain, shown⟩) trivial
  rw [withChild, ← element]
  exact .tag (by decide +kernel) (by decide +kernel) (by simp) (by simp)
    (by simp [Attributes.names]) (by simp) (by simpa using text) trivial

theorem wellFormed_withAttribute (plain : PlainCode code) : (withAttribute code).WellFormed := by
  have element : Descent.kindOf "p" = .element := by decide +kernel
  have named : AttrName "a" := by decide +kernel
  rw [withAttribute, ← element]
  exact .tag (by decide +kernel) (by decide +kernel) (by simp) (by simpa using named)
    (by simp [Attributes.names]) (by simpa [AttrValue.WellFormed] using plain) (by simp) trivial

end

section

open Layout (TagText RunText ValueText)

variable {code : String}

/-- Code between tags is read without the white space around it. -/
theorem parse_child (mode : Mode) (balanced : Text.Balanced code.toList)
    (plain : Host.containsMarkup code.toList = false)
    (shown : isCommentOnly code.toList = false) :
    Fragment.parse .plain mode ("<p>\x7b" ++ code ++ "\x7d</p>") =
      .ok (withChild (String.ofList (Text.trim code.toList))) := by
  obtain ⟨left, right, opening, closing, whole⟩ := Text.exists_blank_trim code.toList
  have shown : isCommentOnly (String.ofList (Text.trim code.toList)).toList = false := by
    rw [String.toList_ofList, ← Bool.not_eq_true]
    rw [whole, ← Bool.not_eq_true] at shown
    exact mt (isCommentOnly_around opening closing) shown
  have run : RunText [.expression (String.ofList (Text.trim code.toList))] _ :=
    .expression (.none (.inl rfl)) opening closing (.last (.none (.inl rfl)))
  have written : TagText (withChild (String.ofList (Text.trim code.toList))) _ :=
    .element .nil (.plain Text.blank_nil) (.last run) Text.blank_nil Text.blank_nil
  have read := Layout.parse_tagText mode
    (wellFormed_withChild (plainCode_trim balanced plain) shown) written Text.blank_nil
    Text.blank_nil
  refine Eq.trans (congrArg (Fragment.parse .plain mode) ?_) read
  rw [← String.toList_inj]
  simpa [Layout.braced, Layout.closingText] using congrArg (· ++ "\x7d</p>".toList) whole

/-- So is code for the value of an attribute. -/
theorem parse_attribute (mode : Mode) (balanced : Text.Balanced code.toList)
    (plain : Host.containsMarkup code.toList = false) :
    Fragment.parse .plain mode ("<p a=\x7b" ++ code ++ "\x7d></p>") =
      .ok (withAttribute (String.ofList (Text.trim code.toList))) := by
  obtain ⟨left, right, opening, closing, whole⟩ := Text.exists_blank_trim code.toList
  have space : Blank [' '] := by decide
  have value : ValueText (.expression (String.ofList (Text.trim code.toList))) _ :=
    .expression Text.blank_nil Text.blank_nil opening closing
  have written : TagText (withAttribute (String.ofList (Text.trim code.toList))) _ :=
    .element (.cons space (by simp) value .nil) (.plain Text.blank_nil)
      (.last (.last (.none (.inl rfl)))) Text.blank_nil Text.blank_nil
  have read := Layout.parse_tagText mode
    (wellFormed_withAttribute (plainCode_trim balanced plain)) written Text.blank_nil Text.blank_nil
  refine Eq.trans (congrArg (Fragment.parse .plain mode) ?_) read
  rw [← String.toList_inj]
  simpa [Layout.braced, Layout.closingText] using congrArg (· ++ "\x7d></p>".toList) whole

end

/-- The code for a paragraph. -/
theorem toList_render_paragraph (attributes : Attributes) (children : List Node) :
    ((Node.tag .element "p" attributes children false).render .standard).toList =
      "h('p', ".toList ++
        ((Render.object (Id.run (Render.entries Hooks.none .standard 0 attributes))).toList ++
          ((Render.arguments .standard 0
            (Id.run (Render.items Hooks.none .standard 0 children))).toList ++ [')'])) := by
  have written : Render.code .standard 0 (.tag .element "p" attributes children false) ++ [] = _ :=
    Render.code_tag _ _ _ _ _ _
  have name : (Render.tagName .element "p").toList = "'p'".toList := by decide +kernel
  rw [List.append_nil, name] at written
  exact written

theorem toList_render_withChild (code : String) :
    ((withChild code).render .standard).toList =
      "h('p', null, ".toList ++ (code.toList ++ [')']) := by
  have arguments :
      Render.arguments .standard 0
        (Id.run (Render.items Hooks.none .standard 0 [.text [.expression code]])) =
          ", " ++ code := rfl
  rw [withChild, toList_render_paragraph, arguments, String.toList_append, List.append_assoc]
  rfl

theorem toList_render_withAttribute (code : String) :
    ((withAttribute code).render .standard).toList =
      "h('p', \x7ba: ".toList ++ (Text.trim code.toList ++ "\x7d)".toList) := by
  have props : Render.object
      (Id.run (Render.entries Hooks.none .standard 0 [("a", .expression code)])) =
        "\x7b" ++ ("a: " ++ String.ofList (Text.trim code.toList)) ++ "\x7d" := rfl
  have arguments :
      Render.arguments .standard 0 (Id.run (Render.items Hooks.none .standard 0 [])) = "" := rfl
  rw [withAttribute, toList_render_paragraph, props, arguments]
  simp

/-- Code is closed in the code for a paragraph as it is by itself. -/
theorem closed_render_withChild (code : String) :
    Closed ((withChild code).render .standard).toList ↔ Closed code.toList := by
  have begins : Place.code.walk "h('p', null, ".toList = .code := by decide +kernel
  have ends : ∀ c ∈ [')'], Host.Inert c := List.forall_mem_singleton.2 (by decide)
  rw [Host.closed_iff, Host.closed_iff, toList_render_withChild, Place.walk_append, begins,
    Place.walk_append, Host.isCode_walk ends]

theorem closed_render_withAttribute (code : String) :
    Closed ((withAttribute code).render .standard).toList ↔ Closed (Text.trim code.toList) := by
  have begins : Place.code.walk "h('p', \x7ba: ".toList = .code := by decide +kernel
  have ends : ∀ c ∈ "\x7d)".toList, Host.Inert c :=
    List.forall_mem_cons.2 ⟨by decide, List.forall_mem_singleton.2 (by decide)⟩
  rw [Host.closed_iff, Host.closed_iff, toList_render_withAttribute, Place.walk_append, begins,
    Place.walk_append, Host.isCode_walk ends]

/-- **Code that stands alone in markup stays closed, unless it loses the line feed that closes
it.**  Code whose braces pair up, with more to it than comments and with no markup in it, is
read between tags and as the value of an attribute, in both modes.  The code written for
either is closed if and only if the code in braces is closed without the white space around
it; and that it is, if it is closed as it stands and no line feed is in the white space at
its end. -/
theorem rendering_closed_iff (mode : Mode) (code : String) (balanced : Text.Balanced code.toList)
    (shown : isCommentOnly code.toList = false)
    (plain : Host.containsMarkup code.toList = false) :
    (∃ child valued : Node,
      Fragment.parse .plain mode ("<p>\x7b" ++ code ++ "\x7d</p>") = .ok child ∧
      Fragment.parse .plain mode ("<p a=\x7b" ++ code ++ "\x7d></p>") = .ok valued ∧
      (Closed (child.render .standard).toList ↔ Closed (Text.trim code.toList)) ∧
      (Closed (valued.render .standard).toList ↔ Closed (Text.trim code.toList))) ∧
    (Closed code.toList → '\n' ∉ trailing code.toList → Closed (Text.trim code.toList)) := by
  refine ⟨⟨_, _, parse_child mode balanced plain shown, parse_attribute mode balanced plain,
    ?_, ?_⟩, fun closed feed => closed.trim feed⟩
  · rw [closed_render_withChild, String.toList_ofList]
  · rw [closed_render_withAttribute, String.toList_ofList, Text.trim_trim]

/-- A call with quotes, braces and slashes in a string, and a quote in a comment after it. -/
theorem rendering_closed_iff_call :
    ∃ child valued : Node,
      Fragment.parse .plain .strict "<p>\x7b f('it\\'s // \x7b\x7d') /* ' */ \x7d</p>" = .ok child ∧
      Fragment.parse .plain .strict "<p a=\x7b f('it\\'s // \x7b\x7d') /* ' */ \x7d></p>" =
        .ok valued ∧
      Closed (child.render .standard).toList ∧ Closed (valued.render .standard).toList := by
  obtain ⟨⟨child, valued, read, read', alike, alike'⟩, kept⟩ :=
    rendering_closed_iff .strict " f('it\\'s // \x7b\x7d') /* ' */ " (by decide +kernel)
      (by decide +kernel) (by decide +kernel)
  have closed := kept (by decide +kernel) (by decide +kernel)
  exact ⟨child, valued, read, read', alike.2 closed, alike'.2 closed⟩

/-- The line feed in braces closes the comment before it.  It is dropped, and the code written
for both fragments ends inside the comment. -/
theorem rendering_open :
    Text.Balanced "x // c\n".toList ∧ isCommentOnly "x // c\n".toList = false ∧
    Host.containsMarkup "x // c\n".toList = false ∧ Closed "x // c\n".toList ∧
    ∃ child valued : Node,
      Fragment.parse .plain .lenient "<p>\x7bx // c\n\x7d</p>" = .ok child ∧
      Fragment.parse .plain .lenient "<p a=\x7bx // c\n\x7d></p>" = .ok valued ∧
      child.render .standard = "h('p', null, x // c)" ∧
      valued.render .standard = "h('p', \x7ba: x // c\x7d)" ∧
      ¬ Closed (child.render .standard).toList ∧ ¬ Closed (valued.render .standard).toList := by
  have balanced : Text.Balanced "x // c\n".toList := by decide +kernel
  have shown : isCommentOnly "x // c\n".toList = false := by decide +kernel
  have plain : Host.containsMarkup "x // c\n".toList = false := by decide +kernel
  have read := parse_child .lenient balanced plain shown
  have read' := parse_attribute .lenient balanced plain
  exact ⟨balanced, shown, plain, by decide +kernel, _, _, read, read', by decide +kernel,
    by decide +kernel, by decide +kernel, by decide +kernel⟩

end InlineMarkup
