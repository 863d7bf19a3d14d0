import InlineMarkup.Proofs.Reading
import InlineMarkup.Proofs.Soundness

/-!
# InlineMarkup.Proofs.Tokens

The code around markup as tokens.  `Host.seek` looks at one character after the other; here
the same code is cut into tokens, each of which is described by itself:

* `Through` is a text up to the first character that ends it, `Maximal` the longest run of
  characters of a kind;
* `Token.Leads` says when a text begins with a token, and `Cut` when a text is made of
  tokens, one after the other;
* there is one way to cut a text (`exists_cut`, `Cut.unique`).
-/

namespace InlineMarkup.Host

open Name (isPart isStart)
open Unicode (isSpace)

/-! ## Texts up to a character that ends them -/

/-- No character of a text ends it.  What ends a text may depend on what stands before
the character. -/
def Unended (ends : List Char → Char → Bool) (text : List Char) : Prop :=
  ∀ before c after, text = before ++ c :: after → ends before c = false

/-- A text goes through the first character that ends it.  If there is none, nothing
follows. -/
def Through (ends : List Char → Char → Bool) (body rest : List Char) : Prop :=
  (∃ before c, body = before ++ [c] ∧ ends before c = true ∧ Unended ends before) ∨
    Unended ends body ∧ rest = []

/-- A text up to the first character that ends it, and with it. -/
def takeThrough (ends : List Char → Char → Bool) : List Char → List Char
  | [] => []
  | c :: rest => if ends [] c then [c] else c :: takeThrough (fun before => ends (c :: before)) rest

section

variable {ends : List Char → Char → Bool} {c : Char} {body rest text : List Char}

theorem unended_nil : Unended ends [] := by
  intro before c after h
  exact absurd h.symm (by simp)

theorem unended_cons :
    Unended ends (c :: text) ↔
      ends [] c = false ∧ Unended (fun before => ends (c :: before)) text := by
  constructor
  · intro unended
    refine ⟨unended [] c text rfl, fun before d after h => unended (c :: before) d after ?_⟩
    rw [h, List.cons_append]
  · rintro ⟨first, following⟩ before d after h
    cases before with
    | nil =>
      obtain ⟨rfl, -⟩ := List.cons.inj h
      exact first
    | cons e before =>
      obtain ⟨rfl, inner⟩ := List.cons.inj h
      exact following before d after inner

theorem through_nil : Through ends [] rest ↔ rest = [] := by
  simp [Through, unended_nil]

theorem through_cons :
    Through ends (c :: body) rest ↔
      if ends [] c then body = [] else Through (fun before => ends (c :: before)) body rest := by
  split
  · next ended =>
    constructor
    · rintro (⟨before, d, h, -, unended⟩ | ⟨unended, -⟩)
      · cases before with
        | nil => exact (List.cons.inj h).2
        | cons e before =>
          obtain ⟨rfl, -⟩ := List.cons.inj h
          rw [(unended_cons.1 unended).1] at ended
          contradiction
      · rw [(unended_cons.1 unended).1] at ended
        contradiction
    · rintro rfl
      exact .inl ⟨[], c, rfl, ended, unended_nil⟩
  · next going =>
    have going := Bool.eq_false_iff.2 going
    constructor
    · rintro (⟨before, d, h, ended, unended⟩ | ⟨unended, rfl⟩)
      · cases before with
        | nil =>
          obtain ⟨rfl, -⟩ := List.cons.inj h
          rw [going] at ended
          contradiction
        | cons e before =>
          obtain ⟨rfl, inner⟩ := List.cons.inj h
          exact .inl ⟨before, d, inner, ended, (unended_cons.1 unended).2⟩
      · exact .inr ⟨(unended_cons.1 unended).2, rfl⟩
    · rintro (⟨before, d, rfl, ended, unended⟩ | ⟨unended, rfl⟩)
      · exact .inl ⟨c :: before, d, rfl, ended, unended_cons.2 ⟨going, unended⟩⟩
      · exact .inr ⟨unended_cons.2 ⟨going, unended⟩, rfl⟩

/-- There is one such text at the start of every text. -/
theorem through_iff : Through ends body rest ↔ takeThrough ends (body ++ rest) = body := by
  induction body generalizing ends with
  | nil =>
    rw [through_nil, List.nil_append]
    cases rest with
    | nil => simp [takeThrough]
    | cons c rest =>
      simp only [takeThrough]
      split
      · simp
      · simp
  | cons c body ih =>
    rw [through_cons, List.cons_append, takeThrough]
    split
    · simp [eq_comm]
    · simp [ih]

theorem takeThrough_append_drop :
    takeThrough ends text ++ text.drop (takeThrough ends text).length = text := by
  induction text generalizing ends with
  | nil => rfl
  | cons c text ih =>
    rw [takeThrough]
    split
    · rfl
    · simp [ih]

theorem through_takeThrough :
    Through ends (takeThrough ends text) (text.drop (takeThrough ends text).length) := by
  rw [through_iff, takeThrough_append_drop]

/-- The last character of such a text ends it, if anything follows. -/
theorem Through.last_ends (through : Through ends body rest) (more : rest ≠ []) :
    ∃ before c, body = before ++ [c] ∧ ends before c = true := by
  obtain ⟨before, c, h, ended, -⟩ | ⟨-, ended⟩ := through
  · exact ⟨before, c, h, ended⟩
  · contradiction

end

/-! ## Tokens -/

/-- What code is made of. -/
inductive Token where
  /-- A string literal: what it is quoted with, and the text after the first quote. -/
  | string (quote : Char) (body : List Char)
  /-- A comment to the end of a line, from its third character on. -/
  | lineComment (body : List Char)
  /-- A comment to a mark, from its third character on. -/
  | blockComment (body : List Char)
  /-- White space. -/
  | space (run : List Char)
  /-- An identifier, a keyword or a number. -/
  | word (run : List Char)
  /-- Any other character. -/
  | mark (c : Char)
deriving DecidableEq

/-- Whether a string literal begins with `c`. -/
def isQuote (c : Char) : Bool := c == '\'' || c == '"' || c == '\x60'

/-- Whether a backslash takes the character after `before` for itself: an odd number of
them stand right before it. -/
def escaped (before : List Char) : Bool :=
  (before.reverse.takeWhile (· == '\\')).length % 2 == 1

/-- Where a string literal ends: at its quote or, unless that is a backtick, at the end of
the line. -/
def stringEnds (quote : Char) (before : List Char) (c : Char) : Bool :=
  (c == quote || c == '\n' && quote != '\x60') && !escaped before

/-- Where a line ends. -/
def lineEnds (_before : List Char) (c : Char) : Bool := c == '\n'

/-- Where a comment ends that has a mark for its end. -/
def blockEnds (before : List Char) (c : Char) : Bool := c == '/' && before.getLast? == some '*'

/-- The longest run of characters of a kind, and not an empty one. -/
structure Maximal (kind : Char → Bool) (run rest : List Char) : Prop where
  nonempty : run ≠ []
  all : ∀ c ∈ run, kind c = true
  stops : rest.head?.any kind = false

namespace Token

/-- A token as written. -/
def text : Token → List Char
  | string quote body => quote :: body
  | lineComment body => '/' :: '/' :: body
  | blockComment body => '/' :: '*' :: body
  | space run => run
  | word run => run
  | mark c => [c]

/-- A text begins with the token, and `rest` follows. -/
def Leads : Token → List Char → Prop
  | string quote body, rest => isQuote quote = true ∧ Through (stringEnds quote) body rest
  | lineComment body, rest => Through lineEnds body rest
  | blockComment body, rest => Through blockEnds body rest
  | space run, rest => Maximal isSpace run rest
  | word run, rest => Maximal isPart run rest
  | mark c, rest => isQuote c = false ∧ isSpace c = false ∧ isPart c = false ∧
      ¬ (c = '/' ∧ (rest.head? = some '/' ∨ rest.head? = some '*'))

end Token

/-- Tokens as written. -/
def textOf (tokens : List Token) : List Char := tokens.flatMap Token.text

/-- Each token is the one that the text left begins with. -/
def Proper : List Token → Prop
  | [] => True
  | token :: tokens => token.Leads (textOf tokens) ∧ Proper tokens

/-- A text cut into tokens. -/
structure Cut (text : List Char) (tokens : List Token) : Prop where
  whole : textOf tokens = text
  proper : Proper tokens

@[simp] theorem textOf_nil : textOf [] = [] := rfl

@[simp] theorem textOf_cons (token : Token) (tokens : List Token) :
    textOf (token :: tokens) = token.text ++ textOf tokens := rfl

@[simp] theorem textOf_append (first last : List Token) :
    textOf (first ++ last) = textOf first ++ textOf last :=
  List.flatMap_append

/-! ## Kinds of characters -/

theorem isQuote_iff {c : Char} : isQuote c = true ↔ c = '\'' ∨ c = '"' ∨ c = '\x60' := by
  simp [isQuote, or_assoc]

/-- White space neither begins another token nor opens markup. -/
theorem plain_of_isSpace {c : Char} (space : isSpace c = true) :
    isQuote c = false ∧ c ≠ '/' ∧ c ≠ '<' := by
  refine ⟨?_, ne_of_isSpace space (by decide), ne_of_isSpace space (by decide)⟩
  rw [Bool.eq_false_iff, Ne, isQuote_iff]
  rintro (rfl | rfl | rfl)
  · contradiction
  · contradiction
  · contradiction

/-- Nor does a character of a word. -/
theorem plain_of_isPart {c : Char} (part : isPart c = true) :
    isQuote c = false ∧ c ≠ '/' ∧ c ≠ '<' := by
  have marks : ['\'', '"', '\x60', '/', '<'].all (fun d => !isPart d) = true := by decide +kernel
  have other : c ∉ ['\'', '"', '\x60', '/', '<'] := by
    intro mem
    have := List.all_eq_true.1 marks c mem
    rw [part] at this
    contradiction
  simp only [List.mem_cons, List.not_mem_nil, or_false, not_or] at other
  obtain ⟨single, double, backtick, slash, less⟩ := other
  refine ⟨?_, slash, less⟩
  rw [Bool.eq_false_iff, Ne, isQuote_iff]
  simp [single, double, backtick]

theorem not_isPart_of_isQuote {c : Char} (quoted : isQuote c = true) : isPart c = false := by
  rw [Bool.eq_false_iff]
  intro part
  rw [(plain_of_isPart part).1] at quoted
  contradiction

theorem Maximal.takeWhile_eq {kind : Char → Bool} {run rest : List Char}
    (maximal : Maximal kind run rest) : (run ++ rest).takeWhile kind = run :=
  takeWhile_append_stop maximal.all maximal.stops

theorem maximal_takeWhile {kind : Char → Bool} {c : Char} (holds : kind c = true)
    (rest : List Char) :
    Maximal kind ((c :: rest).takeWhile kind) ((c :: rest).dropWhile kind) where
  nonempty := by simp [holds]
  all := List.all_eq_true.1 List.all_takeWhile
  stops := any_head?_dropWhile kind (c :: rest)

/-! ## Cuts that can be checked -/

instance (ends : List Char → Char → Bool) (body rest : List Char) :
    Decidable (Through ends body rest) :=
  decidable_of_iff (takeThrough ends (body ++ rest) = body) through_iff.symm

instance (kind : Char → Bool) (run rest : List Char) : Decidable (Maximal kind run rest) :=
  decidable_of_iff (run ≠ [] ∧ run.all kind = true ∧ rest.head?.any kind = false)
    ⟨fun h => ⟨h.1, List.all_eq_true.1 h.2.1, h.2.2⟩, fun h => ⟨h.1, List.all_eq_true.2 h.2, h.3⟩⟩

instance (token : Token) (rest : List Char) : Decidable (token.Leads rest) :=
  match token with
  | .string quote body =>
    inferInstanceAs (Decidable (isQuote quote = true ∧ Through (stringEnds quote) body rest))
  | .lineComment body => inferInstanceAs (Decidable (Through lineEnds body rest))
  | .blockComment body => inferInstanceAs (Decidable (Through blockEnds body rest))
  | .space run => inferInstanceAs (Decidable (Maximal isSpace run rest))
  | .word run => inferInstanceAs (Decidable (Maximal isPart run rest))
  | .mark c => inferInstanceAs (Decidable (isQuote c = false ∧ isSpace c = false ∧
      isPart c = false ∧ ¬ (c = '/' ∧ (rest.head? = some '/' ∨ rest.head? = some '*'))))

instance decidableProper : (tokens : List Token) → Decidable (Proper tokens)
  | [] => isTrue trivial
  | token :: tokens =>
    have := decidableProper tokens
    inferInstanceAs (Decidable (token.Leads (textOf tokens) ∧ Proper tokens))

instance (text : List Char) (tokens : List Token) : Decidable (Cut text tokens) :=
  decidable_of_iff (textOf tokens = text ∧ Proper tokens) ⟨fun h => ⟨h.1, h.2⟩, fun h => ⟨h.1, h.2⟩⟩

/-! ## The one way to cut a text -/

namespace Token

/-- The token that a text begins with. -/
def lead (c : Char) (rest : List Char) : Token :=
  if isQuote c then string c (takeThrough (stringEnds c) rest)
  else if c = '/' ∧ rest.head? = some '/' then lineComment (takeThrough lineEnds rest.tail)
  else if c = '/' ∧ rest.head? = some '*' then blockComment (takeThrough blockEnds rest.tail)
  else if isSpace c then space ((c :: rest).takeWhile isSpace)
  else if isPart c then word ((c :: rest).takeWhile isPart)
  else mark c

/-- No other token leads. -/
theorem Leads.eq_lead {token : Token} {c : Char} {more rest : List Char}
    (leads : token.Leads rest) (h : token.text ++ rest = c :: more) : token = lead c more := by
  cases token with
  | string quote body =>
    obtain ⟨rfl, rfl⟩ : quote = c ∧ body ++ rest = more := by simpa [text] using h
    rw [lead, if_pos leads.1, through_iff.1 leads.2]
  | lineComment body =>
    obtain ⟨rfl, rfl⟩ : '/' = c ∧ '/' :: (body ++ rest) = more := by simpa [text] using h
    simp [lead, isQuote, through_iff.1 leads]
  | blockComment body =>
    obtain ⟨rfl, rfl⟩ : '/' = c ∧ '*' :: (body ++ rest) = more := by simpa [text] using h
    simp [lead, isQuote, through_iff.1 leads]
  | space run =>
    obtain ⟨d, run, rfl⟩ := List.exists_cons_of_ne_nil leads.nonempty
    have all := leads.takeWhile_eq
    obtain ⟨rfl, rfl⟩ : d = c ∧ run ++ rest = more := by simpa [text] using h
    have blank := leads.all d List.mem_cons_self
    obtain ⟨unquoted, slash, -⟩ := plain_of_isSpace blank
    rw [List.cons_append] at all
    simp only [lead, unquoted, slash, blank, all, false_and, if_false, if_true, Bool.false_eq_true]
  | word run =>
    obtain ⟨d, run, rfl⟩ := List.exists_cons_of_ne_nil leads.nonempty
    have all := leads.takeWhile_eq
    obtain ⟨rfl, rfl⟩ : d = c ∧ run ++ rest = more := by simpa [text] using h
    have part := leads.all d List.mem_cons_self
    have visible := Name.not_isSpace_of_isPart part
    obtain ⟨unquoted, slash, -⟩ := plain_of_isPart part
    rw [List.cons_append] at all
    simp only [lead, unquoted, slash, visible, part, all, false_and, if_false, if_true,
      Bool.false_eq_true]
  | mark d =>
    obtain ⟨rfl, rfl⟩ : d = c ∧ rest = more := by simpa [text] using h
    obtain ⟨unquoted, visible, other, comment⟩ := leads
    have line : ¬ (d = '/' ∧ rest.head? = some '/') := fun h => comment ⟨h.1, .inl h.2⟩
    have block : ¬ (d = '/' ∧ rest.head? = some '*') := fun h => comment ⟨h.1, .inr h.2⟩
    simp only [lead, unquoted, visible, other, if_neg line, if_neg block, if_false,
      Bool.false_eq_true]

/-- A text begins with a token. -/
theorem exists_leads (c : Char) (more : List Char) :
    ∃ token rest, Leads token rest ∧ token.text ≠ [] ∧ token.text ++ rest = c :: more := by
  by_cases quoted : isQuote c = true
  · exact ⟨string c _, _, ⟨quoted, through_takeThrough⟩, by simp [text],
      congrArg (c :: ·) takeThrough_append_drop⟩
  by_cases line : c = '/' ∧ more.head? = some '/'
  · obtain ⟨rfl, follows⟩ := line
    obtain ⟨more, rfl⟩ := List.head?_eq_some_iff.1 follows
    exact ⟨lineComment _, _, through_takeThrough, by simp [text],
      congrArg ('/' :: '/' :: ·) takeThrough_append_drop⟩
  by_cases block : c = '/' ∧ more.head? = some '*'
  · obtain ⟨rfl, follows⟩ := block
    obtain ⟨more, rfl⟩ := List.head?_eq_some_iff.1 follows
    exact ⟨blockComment _, _, through_takeThrough, by simp [text],
      congrArg ('/' :: '*' :: ·) takeThrough_append_drop⟩
  by_cases blank : isSpace c = true
  · exact ⟨space _, _, maximal_takeWhile blank more, (maximal_takeWhile blank more).nonempty,
      List.takeWhile_append_dropWhile⟩
  by_cases part : isPart c = true
  · exact ⟨word _, _, maximal_takeWhile part more, (maximal_takeWhile part more).nonempty,
      List.takeWhile_append_dropWhile⟩
  · refine ⟨mark c, more, ⟨Bool.eq_false_iff.2 quoted, Bool.eq_false_iff.2 blank,
      Bool.eq_false_iff.2 part, ?_⟩, by simp [text], rfl⟩
    rintro ⟨slash, follows | follows⟩
    · exact line ⟨slash, follows⟩
    · exact block ⟨slash, follows⟩

theorem Leads.text_ne_nil {token : Token} {rest : List Char} (leads : token.Leads rest) :
    token.text ≠ [] := by
  cases token with
  | string | lineComment | blockComment | mark => simp [text]
  | space run | word run => exact leads.nonempty

/-- After a token that ends with a character of a word, no word goes on. -/
theorem Leads.apart {token : Token} {rest : List Char} (leads : token.Leads rest)
    (ends : token.text.getLast?.any isPart = true) : rest.head?.any isPart = false := by
  have ended {stops : List Char → Char → Bool} {body : List Char} (first : List Char)
      (through : Through stops body rest)
      (other : ∀ before c, stops before c = true → isPart c = false)
      (ends : (first ++ body).getLast?.any isPart = true) : rest.head?.any isPart = false := by
    cases rest with
    | nil => rfl
    | cons d rest =>
      obtain ⟨before, c, rfl, stop⟩ := through.last_ends (List.cons_ne_nil d rest)
      rw [← List.append_assoc, List.getLast?_concat, Option.any_some, other before c stop] at ends
      contradiction
  cases token with
  | string quote body =>
    refine ended [quote] leads.2 ?_ ends
    intro before c stop
    simp only [stringEnds, Bool.and_eq_true, Bool.or_eq_true, beq_iff_eq] at stop
    obtain ⟨rfl | ⟨rfl, -⟩, -⟩ := stop
    · exact not_isPart_of_isQuote leads.1
    · decide +kernel
  | lineComment body =>
    refine ended ['/', '/'] leads ?_ ends
    intro before c stop
    obtain rfl : c = '\n' := by simpa [lineEnds] using stop
    decide +kernel
  | blockComment body =>
    refine ended ['/', '*'] leads ?_ ends
    intro before c stop
    obtain ⟨rfl, -⟩ : c = '/' ∧ _ := by simpa [blockEnds] using stop
    decide +kernel
  | space run =>
    obtain ⟨c, last, part⟩ : ∃ c, run.getLast? = some c ∧ isPart c = true := by
      simpa [text, Option.any_eq_true] using ends
    have blank := leads.all c (List.mem_of_getLast? last)
    rw [Name.not_isSpace_of_isPart part] at blank
    contradiction
  | word run => exact leads.stops
  | mark c =>
    obtain ⟨-, -, other, -⟩ := leads
    simp [text, other] at ends

end Token

/-- Every text can be cut. -/
theorem exists_cut (text : List Char) : ∃ tokens, Cut text tokens := by
  induction size : text.length using Nat.strongRecOn generalizing text with
  | ind n ih =>
    cases text with
    | nil => exact ⟨[], rfl, trivial⟩
    | cons c more =>
      obtain ⟨token, rest, leads, nonempty, whole⟩ := Token.exists_leads c more
      have shorter : rest.length < n := by
        have total := congrArg List.length whole
        have := List.length_pos_iff.2 nonempty
        rw [List.length_append] at total
        omega
      obtain ⟨tokens, following, proper⟩ := ih rest.length shorter rest rfl
      exact ⟨token :: tokens, by rw [textOf_cons, following, whole], by rwa [following], proper⟩

/-- There is no other way to cut it. -/
theorem Cut.unique {text : List Char} {tokens others : List Token} (cut : Cut text tokens)
    (other : Cut text others) : others = tokens := by
  obtain ⟨rfl, proper⟩ := cut
  obtain ⟨whole, others_proper⟩ := other
  induction tokens generalizing others with
  | nil =>
    cases others with
    | nil => rfl
    | cons token others =>
      exact absurd (List.append_eq_nil_iff.1 whole).1 others_proper.1.text_ne_nil
  | cons token tokens ih =>
    obtain ⟨c, more, begins⟩ := List.exists_cons_of_ne_nil proper.1.text_ne_nil
    have first : textOf (token :: tokens) = c :: (more ++ textOf tokens) := by
      rw [textOf_cons, begins, List.cons_append]
    cases others with
    | nil =>
      rw [first] at whole
      contradiction
    | cons other others =>
      obtain rfl : other = token :=
        (others_proper.1.eq_lead (whole.trans first)).trans (proper.1.eq_lead first).symm
      rw [ih proper.2 (List.append_cancel_left whole) others_proper.2]

end InlineMarkup.Host
