import InlineMarkup.Proofs.Pragmas

/-!
# InlineMarkup.Proofs.Comments

Pragmas and comments.  What a comment is depends on who is asked: `Host.seek` knows strings
(`Host.Cut`), while a pragma is looked for behind anything that looks like the start of a
comment.  Here the two are compared.

* `Host.CommentAt` is a comment among the tokens of a text, and `Pragma.Commented` a keyword
  with a name in it;
* `Pragma.reaches_comment`: from the start of a comment, the keywords in it are reached and
  no others, except that a keyword right after a star in a block comment is passed over;
* `Pragma.detect?_eq_firstCommented`: so the name found is that of the first keyword in a
  comment, unless something before all comments with a keyword leads elsewhere, or that keyword
  itself is passed over.  What comes later does not matter.

`Pragma.detect?_misses_comments` shows that neither exception can be left out.
-/

namespace InlineMarkup

/-! ## Comments among tokens -/

namespace Host

/-- The text of a comment, from its third character on. -/
def Token.comment? : Token → Option (List Char)
  | lineComment body | blockComment body => some body
  | string _ _ | space _ | word _ | mark _ => none

/-- A comment of a text that is cut into tokens, and the place where it begins. -/
def CommentAt (tokens : List Token) (start : Nat) (token : Token) (body : List Char) : Prop :=
  token.comment? = some body ∧
    ∃ before after, tokens = before ++ token :: after ∧ (textOf before).length = start

theorem Proper.leads {before after : List Token} {token : Token}
    (proper : Proper (before ++ token :: after)) : token.Leads (textOf after) := by
  induction before with
  | nil => exact proper.1
  | cons first before ih => exact ih proper.2

theorem Token.length_text {token : Token} {body : List Char}
    (comment : token.comment? = some body) :
    token.text.length = body.length + 2 := by
  cases token with
  | lineComment | blockComment =>
    cases comment
    rfl
  | string | space | word | mark => contradiction

theorem CommentAt.mem {tokens : List Token} {start : Nat} {token : Token} {body : List Char}
    (comment : CommentAt tokens start token body) : token ∈ tokens := by
  obtain ⟨-, before, after, rfl, -⟩ := comment
  simp

/-- A token further on is the same one, or begins where the first has ended. -/
theorem same_or_later (before : List Token) {between after after' : List Token}
    {token token' : Token} (further : token :: after = between ++ token' :: after') :
    between = [] ∧ token = token' ∨
      (textOf before).length + token.text.length ≤ (textOf (before ++ between)).length := by
  cases between with
  | nil => exact .inl ⟨rfl, (List.cons.inj further).1⟩
  | cons first between =>
    obtain ⟨rfl, -⟩ := List.cons.inj further
    refine .inr ?_
    rw [textOf_append, textOf_cons, List.length_append, List.length_append]
    omega

/-- Two comments are the same, or one ends before the other begins. -/
theorem CommentAt.apart {tokens : List Token} {start start' : Nat} {token token' : Token}
    {body body' : List Char} (first : CommentAt tokens start token body)
    (second : CommentAt tokens start' token' body') :
    start = start' ∧ body = body' ∨
      start + 2 + body.length ≤ start' ∨ start' + 2 + body'.length ≤ start := by
  obtain ⟨comment, before, after, rfl, rfl⟩ := first
  obtain ⟨comment', before', after', whole, rfl⟩ := second
  have size := Token.length_text comment
  have size' := Token.length_text comment'
  obtain ⟨between, rfl, rest⟩ | ⟨between, rfl, rest⟩ := List.append_eq_append_iff.1 whole
  · obtain ⟨rfl, rfl⟩ | later := same_or_later before rest
    · exact .inl ⟨by simp, Option.some_inj.1 (comment.symm.trans comment')⟩
    · exact .inr (.inl (by omega))
  · obtain ⟨rfl, rfl⟩ | later := same_or_later before' rest
    · exact .inl ⟨by simp, Option.some_inj.1 (comment.symm.trans comment')⟩
    · exact .inr (.inr (by omega))

/-- Before its last character, nothing ends a text. -/
theorem Through.unended_take {ends : List Char → Char → Bool} {body rest : List Char}
    (through : Through ends body rest) {k : Nat} (inside : k < body.length) :
    Unended ends (body.take k) := by
  have shorter (text : List Char) (unended : Unended ends text) : Unended ends (text.take k) := by
    intro before c after same
    have whole := List.take_append_drop k text
    rw [same, List.append_assoc, List.cons_append] at whole
    exact unended before c _ whole.symm
  obtain ⟨before, c, rfl, -, unended⟩ | ⟨unended, -⟩ := through
  · rw [List.length_append, List.length_singleton] at inside
    rw [List.take_append_of_le_length (by omega)]
    exact shorter before unended
  · exact shorter body unended

end Host

namespace Pragma

open Host (Token Cut CommentAt Through Unended lineEnds blockEnds textOf)

/-! ## Keywords that end before a comment does -/

/-- A keyword with a name ends before the first character that may not stand in it, so
what comes after that does not count. -/
theorem gives_stop {x y z name : List Char} {stop : Char} (outside : stop ∉ keyword)
    (blank : isBlank stop = false) (other : isNameChar stop = false)
    (gives : Gives (x ++ stop :: y) name) : Gives (x ++ stop :: z) name := by
  obtain ⟨blanks, rest, same, nonempty, all, named⟩ := gives
  have inside : stop ∉ keyword ++ (blanks ++ name) := by
    simp only [List.mem_append, not_or]
    refine ⟨outside, fun mem => ?_, fun mem => ?_⟩
    · rw [all stop mem] at blank
      contradiction
    · rw [named.all stop mem] at other
      contradiction
  have split : x ++ stop :: y = (keyword ++ (blanks ++ name)) ++ rest := by
    rw [same, List.append_assoc, List.append_assoc]
  -- The first such character is not in the keyword and its name, so it comes after them.
  obtain ⟨after, rfl, rfl⟩ : ∃ after, x = keyword ++ (blanks ++ name) ++ after ∧
      rest = after ++ stop :: y := by
    obtain ⟨within, longer, follows⟩ | shorter := List.append_eq_append_iff.1 split
    · cases within with
      | nil => exact ⟨[], by simpa using longer.symm, by simpa using follows.symm⟩
      | cons c within =>
        obtain ⟨rfl, -⟩ := List.cons.inj follows
        exact absurd (longer ▸ by simp) inside
    · exact shorter
  refine ⟨blanks, after ++ stop :: z, by simp, nonempty, all, named.nonempty, named.all, ?_⟩
  have stops := named.stops
  cases after with
  | nil => simpa using other
  | cons c after => simpa using stops

theorem gives_feed {x y z name : List Char} (gives : Gives (x ++ '\n' :: y) name) :
    Gives (x ++ '\n' :: z) name :=
  gives_stop (by decide) (by decide) (by decide) gives

theorem gives_star {x y z name : List Char} (gives : Gives (x ++ '*' :: y) name) :
    Gives (x ++ '*' :: z) name :=
  gives_stop (by decide) (by decide) (by decide) gives

theorem Gives.ne_nil {text name : List Char} (gives : Gives text name) : text ≠ [] := by
  rintro rfl
  exact not_gives_of_none rfl name gives

/-! ## Keywords in a comment -/

theorem lineBody_of_unended {body : List Char} (unended : Unended lineEnds body) :
    LineBody body := by
  intro mem
  obtain ⟨before, after, rfl⟩ := List.append_of_mem mem
  have going : lineEnds before '\n' = false := unended before '\n' after rfl
  simp [lineEnds] at going

theorem not_infix_of_unended {body : List Char} (unended : Unended blockEnds body) :
    ¬ ['*', '/'] <:+: body := by
  rintro ⟨before, after, rfl⟩
  have going : blockEnds (before ++ ['*']) '/' = false := unended _ '/' after (by simp)
  simp [blockEnds] at going

/-- A keyword with a name in a line comment ends there. -/
theorem gives_lineComment {body rest name : List Char} {k : Nat}
    (through : Through lineEnds body rest) (inside : k < body.length) :
    Gives ((body ++ rest).drop k) name ↔ Gives (body.drop k) name := by
  by_cases last : rest = []
  · rw [last, List.append_nil]
  · obtain ⟨before, c, rfl, ends⟩ := through.last_ends last
    obtain rfl : c = '\n' := by simpa [lineEnds] using ends
    rw [List.length_append, List.length_singleton] at inside
    have le : k ≤ before.length := by omega
    rw [List.append_assoc, List.drop_append_of_le_length le, List.drop_append_of_le_length le]
    exact ⟨gives_feed, gives_feed⟩

/-- A keyword with a name in a block comment ends there. -/
theorem gives_blockComment {body rest name : List Char} {k : Nat}
    (through : Through blockEnds body rest) (inside : k < body.length) :
    Gives ((body ++ rest).drop k) name ↔ Gives (body.drop k) name := by
  by_cases last : rest = []
  · rw [last, List.append_nil]
  · obtain ⟨before, c, rfl, ends⟩ := through.last_ends last
    obtain ⟨rfl, star⟩ : c = '/' ∧ before.getLast? = some '*' := by simpa [blockEnds] using ends
    obtain ⟨before, rfl⟩ := List.getLast?_eq_some_iff.1 star
    simp only [List.length_append, List.length_singleton] at inside
    by_cases le : k ≤ before.length
    · simp only [List.append_assoc, List.drop_append_of_le_length le]
      exact ⟨gives_star, gives_star⟩
    · -- At the slash of the mark there is no keyword.
      have slash (rest : List Char) : (before ++ ['*'] ++ rest).drop k = rest :=
        List.drop_left' (by simp; omega)
      rw [List.append_assoc (before ++ ['*']), slash, slash]
      exact iff_of_false (not_gives_of_none rfl name) (not_gives_of_none rfl name)

/-- A keyword that may stand behind the start of a comment stands in it, if the comment
itself may not stand before a keyword. -/
theorem GivesAt.inside {Body : List Char → Prop} {body rest name : List Char} {k : Nat}
    (given : GivesAt Body (body ++ rest) k name)
    (whole : rest ≠ [] → ∀ further, body <+: further → ¬ Body further) : k < body.length := by
  refine Nat.lt_of_not_le fun beyond => ?_
  by_cases last : rest = []
  · refine given.2.ne_nil ?_
    rw [last, List.append_nil, List.drop_eq_nil_iff]
    exact beyond
  · exact whole last _ (List.prefix_take_iff.2 ⟨List.prefix_append _ _, beyond⟩) given.1

theorem givesAt_lineComment {body rest name : List Char} {k : Nat}
    (through : Through lineEnds body rest) :
    GivesAt LineBody (body ++ rest) k name ↔ Gives (body.drop k) name := by
  have within (inside : k < body.length) :
      GivesAt LineBody (body ++ rest) k name ↔ Gives (body.drop k) name := by
    have own := lineBody_of_unended (through.unended_take inside)
    rw [GivesAt, List.take_append_of_le_length (Nat.le_of_lt inside), and_iff_right own,
      gives_lineComment through inside]
  constructor
  · intro given
    refine (within (given.inside fun last further longer line => ?_)).1 given
    obtain ⟨before, c, rfl, ends⟩ := through.last_ends last
    obtain rfl : c = '\n' := by simpa [lineEnds] using ends
    exact line (longer.subset (by simp))
  · exact fun gives => (within (List.length_lt_of_drop_ne_nil gives.ne_nil)).2 gives

theorem givesAt_blockComment {body rest name : List Char} {k : Nat}
    (through : Through blockEnds body rest) :
    GivesAt BlockBody (body ++ rest) k name ↔
      Gives (body.drop k) name ∧ (body.take k).getLast? ≠ some '*' := by
  have within (inside : k < body.length) :
      GivesAt BlockBody (body ++ rest) k name ↔
        Gives (body.drop k) name ∧ (body.take k).getLast? ≠ some '*' := by
    have own := not_infix_of_unended (through.unended_take inside)
    rw [GivesAt, List.take_append_of_le_length (Nat.le_of_lt inside), BlockBody, and_iff_right own,
      gives_blockComment through inside, and_comm]
  constructor
  · intro given
    refine (within (given.inside fun last further longer block => ?_)).1 given
    obtain ⟨before, c, rfl, ends⟩ := through.last_ends last
    obtain ⟨rfl, star⟩ : c = '/' ∧ before.getLast? = some '*' := by simpa [blockEnds] using ends
    obtain ⟨before, rfl⟩ := List.getLast?_eq_some_iff.1 star
    exact block.1 (List.IsInfix.trans ⟨before, [], by simp⟩ longer.isInfix)
  · exact fun given => (within (List.length_lt_of_drop_ne_nil given.1.ne_nil)).2 given

/-- What stands before a keyword in a comment lets it be found: anything in a line comment,
no star in a block comment. -/
def Unstarred : Token → List Char → Prop
  | .blockComment _, before => before.getLast? ≠ some '*'
  | _, _ => True

/-- From the start of a comment, the keywords in it are reached, unless a star stands
before them in a block comment. -/
theorem reaches_comment {token : Token} {body rest name : List Char} {k : Nat}
    (comment : token.comment? = some body) (leads : token.Leads rest) :
    Reaches (token.text ++ rest) 0 (k + 2) name ↔
      Gives (body.drop k) name ∧ Unstarred token (body.take k) := by
  cases token with
  | lineComment =>
    cases comment
    exact reaches_line.trans ((givesAt_lineComment leads).trans (and_iff_left trivial).symm)
  | blockComment =>
    cases comment
    exact reaches_block.trans (givesAt_blockComment leads)
  | string | space | word | mark => contradiction

theorem reaches_append (before : List Char) {text name : List Char} (i j : Nat) :
    Reaches (before ++ text) (before.length + i) (before.length + j) name ↔
      Reaches text i j name := by
  induction before with
  | nil => simp
  | cons c before ih =>
    rw [List.cons_append, List.length_cons, Nat.add_right_comm, Nat.add_right_comm _ 1 j,
      reaches_succ, ih]

/-! ## Pragmas in comments -/

/-- A keyword with a name stands in a comment, at a place in the text. -/
def Commented (tokens : List Token) (place : Nat) (name : List Char) : Prop :=
  ∃ start token body k, CommentAt tokens start token body ∧ place = start + 2 + k ∧
    Gives (body.drop k) name

section

variable {text : List Char} {tokens : List Token} {start place i j k : Nat} {token : Token}
  {body name other : List Char}

theorem reaches_commentAt (cut : Cut text tokens) (comment : CommentAt tokens start token body) :
    Reaches text start (start + 2 + k) name ↔
      Gives (body.drop k) name ∧ Unstarred token (body.take k) := by
  obtain ⟨rfl, proper⟩ := cut
  obtain ⟨comment, before, after, rfl, rfl⟩ := comment
  rw [← reaches_comment comment proper.leads, Nat.add_assoc, Nat.add_comm 2 k, Host.textOf_append,
    Host.textOf_cons]
  exact reaches_append (textOf before) 0 (k + 2)

/-- A keyword with a name that stands in a comment ends there as well. -/
theorem gives_commentAt (cut : Cut text tokens) (comment : CommentAt tokens start token body)
    (inside : k < body.length) :
    Gives (text.drop (start + 2 + k)) name ↔ Gives (body.drop k) name := by
  obtain ⟨rfl, proper⟩ := cut
  obtain ⟨comment, before, after, rfl, rfl⟩ := comment
  have leads := proper.leads
  rw [Nat.add_assoc, ← List.drop_drop, Host.textOf_append, List.drop_left, Host.textOf_cons,
    Nat.add_comm 2 k]
  cases token with
  | lineComment content =>
    obtain rfl : content = body := Option.some_inj.1 comment
    change Gives ((content ++ textOf after).drop k) name ↔ _
    exact gives_lineComment leads inside
  | blockComment content =>
    obtain rfl : content = body := Option.some_inj.1 comment
    change Gives ((content ++ textOf after).drop k) name ↔ _
    exact gives_blockComment leads inside
  | string | space | word | mark => contradiction

/-- From the start of a comment, nothing is reached but in the comment. -/
theorem Reaches.commented (cut : Cut text tokens) (comment : CommentAt tokens start token body)
    (reaches : Reaches text start j name) : Commented tokens j name := by
  obtain ⟨k, rfl⟩ : ∃ k, j = start + 2 + k := ⟨j - (start + 2), by have := reaches.1; omega⟩
  exact ⟨start, token, body, k, comment, rfl, ((reaches_commentAt cut comment).1 reaches).1⟩

theorem Commented.unique (cut : Cut text tokens) (first : Commented tokens place name)
    (second : Commented tokens place other) : name = other := by
  obtain ⟨start, token, body, k, comment, rfl, gives⟩ := first
  obtain ⟨start', token', body', k', comment', same, gives'⟩ := second
  have inside := List.length_lt_of_drop_ne_nil gives.ne_nil
  have inside' := List.length_lt_of_drop_ne_nil gives'.ne_nil
  rw [← gives_commentAt cut comment inside] at gives
  rw [← gives_commentAt cut comment' inside', ← same] at gives'
  exact (gives'.iff name).1 gives

end

/-- A comment that begins at a place has a keyword with a name in it. -/
def NamesAt (tokens : List Token) (start : Nat) : Prop :=
  ∃ token body k name, CommentAt tokens start token body ∧ Gives (body.drop k) name

/-- The comment with the first keyword is the first one that has any. -/
theorem IsFirst.start_le {tokens : List Token} {start start' k : Nat}
    {token : Token} {body name : List Char} (comment : CommentAt tokens start token body)
    (first : IsFirst (Commented tokens) (start + 2 + k) name)
    (inside : k < body.length) (names : NamesAt tokens start') : start ≤ start' := by
  obtain ⟨token', body', k', other, comment', gives⟩ := names
  have inside' := List.length_lt_of_drop_ne_nil gives.ne_nil
  obtain ⟨rfl, -⟩ | before | after := comment.apart comment'
  · exact Nat.le_refl _
  · omega
  · exact absurd ⟨start', token', body', k', comment', rfl, gives⟩
      (first.2 (start' + 2 + k') (by omega) other)

/-- **Pragmas are found in comments and only there**, as long as two things are not in the
text: before all comments with a keyword, something that looks like the start of a comment
but leads to another name than the first comment with a keyword gives, or to a name at all if
there is no such comment; and a star right before the first keyword in a comment, if that
is a block comment and its name is not found otherwise from the start of the comment or
from before it.  Then the name found is the one given by the first keyword in a comment
that gives one, and none is found if there is no such keyword. -/
theorem detect?_eq_firstCommented {text : List Char} {tokens : List Token} (cut : Cut text tokens)
    (lookalikes : ∀ i j name, IsFirst (Reaches text i) j name →
      (∀ start, NamesAt tokens start → i < start) →
      ∃ place, IsFirst (Commented tokens) place name)
    (stars : ∀ start token body k name, CommentAt tokens start token body →
      Gives (body.drop k) name → IsFirst (Commented tokens) (start + 2 + k) name →
      Unstarred token (body.take k) ∨ ∃ i ≤ start, ∃ j, IsFirst (Reaches text i) j name)
    (name : List Char) :
    detect? text = some name ↔ ∃ place, IsFirst (Commented tokens) place name := by
  -- The first keyword in a comment is reached from the start of the comment, or its name is
  -- reached from before.
  have known {start k : Nat} {token : Token} {body name : List Char}
      (comment : CommentAt tokens start token body) (gives : Gives (body.drop k) name)
      (first : IsFirst (Commented tokens) (start + 2 + k) name) :
      ∃ i ≤ start, ∃ j, IsFirst (Reaches text i) j name := by
    obtain unstarred | found := stars start token body k name comment gives first
    · refine ⟨start, Nat.le_refl _, start + 2 + k,
        (reaches_commentAt cut comment).2 ⟨gives, unstarred⟩, fun earlier lt other reaches => ?_⟩
      exact first.2 earlier lt other (reaches.commented cut comment)
    · exact found
  -- The first name reached is that of the first keyword in a comment.
  have found {name : List Char} (detected : detect? text = some name) :
      ∃ place, IsFirst (Commented tokens) place name := by
    rw [detect?_eq_first?] at detected
    obtain ⟨i, j, leftmost, before⟩ := first?_eq_some_iff.1 detected
    by_cases behind : ∃ start ≤ i, NamesAt tokens start
    · obtain ⟨start', le, names⟩ := behind
      obtain ⟨token', body', k', other, comment', gives'⟩ := names
      have commented : Commented tokens (start' + 2 + k') other :=
        ⟨start', token', body', k', comment', rfl, gives'⟩
      obtain ⟨place, -, own, first⟩ := exists_isFirst commented
      obtain ⟨start, token, body, k, comment, rfl, gives⟩ := first.1
      have least := first.start_le comment (List.length_lt_of_drop_ne_nil gives.ne_nil)
        ⟨token', body', k', other, comment', gives'⟩
      obtain ⟨i', le', j', reached⟩ := known comment gives first
      have least' : i ≤ i' := Nat.le_of_not_lt fun lt => before i' lt j' own reached.1
      obtain rfl : i' = i := by omega
      obtain rfl := leftmost.place_eq reached
      obtain rfl := (reached.1.2.1.iff name).1 leftmost.1.2.1
      exact ⟨_, first⟩
    · exact lookalikes i j name leftmost fun start names =>
        Nat.lt_of_not_le fun le => behind ⟨start, le, names⟩
  refine ⟨found, ?_⟩
  rintro ⟨place, first⟩
  obtain ⟨start, token, body, k, comment, rfl, gives⟩ := first.1
  obtain ⟨i, -, j, reached⟩ := known comment gives first
  obtain ⟨i', j', name', leftmost⟩ := exists_leftmost reached.1
  have detected : detect? text = some name' := by
    rw [detect?_eq_first?]
    exact first?_eq_some_iff.2 ⟨i', j', leftmost⟩
  obtain ⟨place, first'⟩ := found detected
  obtain rfl := first.place_eq first'
  rw [detected, first.1.unique cut first'.1]

/-- A string with what looks like a comment, a comment behind it on the same line, and a block
comment that begins with a keyword. -/
def lookalikeTokens : List Token :=
  [.string '\'' "//a'".toList, .mark ';', .blockComment " @jsx m */".toList, .space ['\n'],
    .blockComment "*@jsx n */".toList]

/-- The name of the first comment is found, though from the string; the star in the second one
does not matter. -/
theorem detect?_eq_firstCommented_lookalikes :
    detect? (textOf lookalikeTokens) = some ['m'] ∧
      ∃ place, IsFirst (Commented lookalikeTokens) place ['m'] := by
  have cut : Cut (textOf lookalikeTokens) lookalikeTokens := by decide +kernel
  have comment : CommentAt lookalikeTokens 6 (.blockComment " @jsx m */".toList)
      " @jsx m */".toList :=
    ⟨rfl, [.string '\'' "//a'".toList, .mark ';'], [.space ['\n'],
      .blockComment "*@jsx n */".toList], by decide, by decide⟩
  have keywords : ∀ j < 31, (nameHere? ((textOf lookalikeTokens).drop j)).isSome →
      j = 9 ∨ j = 22 := by
    decide +kernel
  have gives : Gives ((textOf lookalikeTokens).drop 9) ['m'] := by decide +kernel
  have keyword {j : Nat} {name : List Char} (given : Gives ((textOf lookalikeTokens).drop j) name) :
      j = 9 ∧ name = ['m'] ∨ j = 22 := by
    obtain rfl | later := keywords j (List.length_lt_of_drop_ne_nil given.ne_nil)
      (Option.isSome_of_eq_some (nameHere?_eq_some_iff.2 given))
    · exact .inl ⟨rfl, (gives.iff name).1 given⟩
    · exact .inr later
  have first : IsFirst (Commented lookalikeTokens) 9 ['m'] := by
    refine ⟨⟨6, _, _, 1, comment, rfl, by decide +kernel⟩, ?_⟩
    rintro earlier lt other ⟨start, token, body, k, comment', rfl, given⟩
    have inside := List.length_lt_of_drop_ne_nil given.ne_nil
    have place := keyword ((gives_commentAt cut comment' inside).2 given)
    omega
  have found : detect? (textOf lookalikeTokens) = some ['m'] := by decide +kernel
  refine ⟨found, (detect?_eq_firstCommented cut ?_ ?_ ['m']).1 found⟩
  · intro i j name reached before
    have lt := before 6 ⟨_, _, 1, ['m'], comment, by decide +kernel⟩
    have apart : ∀ i < 6, ¬ Reaches (textOf lookalikeTokens) i 22 ['n'] := by decide +kernel
    obtain ⟨rfl, rfl⟩ | rfl := keyword reached.1.2.1
    · exact ⟨9, first⟩
    · have last : Gives ((textOf lookalikeTokens).drop 22) ['n'] := by decide +kernel
      obtain rfl := (last.iff name).1 reached.1.2.1
      exact absurd reached.1 (apart i lt)
  · intro start token body k name comment' given first'
    have place := first.place_eq first'
    have inside := List.length_lt_of_drop_ne_nil given.ne_nil
    obtain ⟨rfl, rfl⟩ | before | after := comment.apart comment'
    · obtain rfl : k = 1 := by omega
      refine .inl ?_
      cases token with
      | blockComment => exact (by decide : (" @jsx m */".toList.take 1).getLast? ≠ some '*')
      | string | space | word | mark | lineComment => trivial
    · omega
    · omega

/-- **Neither exception can be left out.**  The first text has no comment, but a name is
found in its string; the second is a comment with a keyword and a name, and none is
found. -/
theorem detect?_misses_comments :
    (∃ tokens, Cut "s = '// @jsx m'".toList tokens ∧ (∀ place name, ¬ Commented tokens place name) ∧
      detect? "s = '// @jsx m'".toList = some ['m', '\'']) ∧
      ∃ tokens, Cut "/**@jsx m */".toList tokens ∧ Commented tokens 3 ['m'] ∧
        detect? "/**@jsx m */".toList = none := by
  refine ⟨⟨[.word ['s'], .space [' '], .mark '=', .space [' '], .string '\'' "// @jsx m'".toList],
    by decide +kernel, ?_, by decide +kernel⟩,
    [.blockComment "*@jsx m */".toList], by decide +kernel, ?_, by decide +kernel⟩
  · rintro place name ⟨start, token, body, k, comment, -⟩
    have none : ∀ token ∈ [Token.word ['s'], .space [' '], .mark '=', .space [' '],
        .string '\'' "// @jsx m'".toList], token.comment? = none := by decide
    exact Option.some_ne_none body (comment.1.symm.trans (none token comment.mem))
  · exact ⟨0, _, _, 1, ⟨rfl, [], [], rfl, rfl⟩, rfl, by decide +kernel⟩

end Pragma

end InlineMarkup
