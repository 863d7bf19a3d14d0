import InlineMarkup.Pragma
import InlineMarkup.Proofs.Tokens

/-!
# InlineMarkup.Proofs.Pragmas

Which name a pragma gives, said by places in the text instead of by readers.  A place
`j` is reached from a place `i` (`Pragma.Reaches`) if a comment seems to open at `i`, a
keyword with a name stands at `j`, and what is between them may stand in such a comment
before a keyword: for `//` anything without a line feed (`LineBody`), for `/*` anything
without `*/` that does not end in a star (`BlockBody`).

* `nameHere?_eq_some_iff`: the keyword and its name at one place;
* `inLine?_eq_some_iff` and `inBlock?_eq_some_iff`: the first name behind an opening;
* `first?_eq_some_iff`: the first opening with a name behind it.

Each reader goes on if there is nothing at its place, so each of the last two is an
induction over the text by `exists_isFirst_zero` and `exists_isFirst_succ`.
-/

namespace InlineMarkup.Pragma

open Host (Maximal)

/-! ## The first place of all -/

/-- A place where a name is given, with none before it. -/
def IsFirst (At : Nat → List Char → Prop) (place : Nat) (name : List Char) : Prop :=
  At place name ∧ ∀ earlier < place, ∀ other, ¬ At earlier other

section

variable {At : Nat → List Char → Prop} {name here : List Char}

theorem exists_isFirst_zero (at0 : ∀ other, At 0 other ↔ other = here) :
    (∃ place, IsFirst At place name) ↔ name = here := by
  constructor
  · rintro ⟨place, given, none⟩
    cases place with
    | zero => exact (at0 name).1 given
    | succ place => exact absurd ((at0 here).2 rfl) (none 0 (Nat.succ_pos place) here)
  · rintro rfl
    exact ⟨0, (at0 name).2 rfl, by simp⟩

theorem exists_isFirst_succ (at0 : ∀ other, ¬ At 0 other) :
    (∃ place, IsFirst At place name) ↔ ∃ place, IsFirst (fun place => At (place + 1)) place name := by
  constructor
  · rintro ⟨place, given, none⟩
    cases place with
    | zero => exact absurd given (at0 name)
    | succ place => exact ⟨place, given, fun earlier lt => none _ (Nat.succ_lt_succ lt)⟩
  · rintro ⟨place, given, none⟩
    refine ⟨place + 1, given, fun earlier lt => ?_⟩
    cases earlier with
    | zero => exact at0
    | succ earlier => exact none earlier (Nat.lt_of_succ_lt_succ lt)

/-- There is no other first place. -/
theorem IsFirst.place_eq {place place' : Nat} {name' : List Char} (first : IsFirst At place name)
    (second : IsFirst At place' name') : place = place' := by
  have le : place ≤ place' := Nat.le_of_not_lt fun lt => first.2 place' lt name' second.1
  have ge : place' ≤ place := Nat.le_of_not_lt fun lt => second.2 place lt name first.1
  omega

/-- Where names are given there is a first one. -/
theorem exists_isFirst {place : Nat} (given : At place name) :
    ∃ first ≤ place, ∃ name, IsFirst At first name := by
  induction place using Nat.strongRecOn generalizing name with
  | ind place ih =>
    by_cases before : ∃ earlier < place, ∃ other, At earlier other
    · obtain ⟨earlier, lt, other, given⟩ := before
      obtain ⟨first, le, found⟩ := ih earlier lt given
      exact ⟨first, by omega, found⟩
    · refine ⟨place, Nat.le_refl _, name, given, fun earlier lt other found => ?_⟩
      exact before ⟨earlier, lt, other, found⟩

end

/-! ## Names -/

/-- A text begins with the keyword, blanks and a name, which goes on as far as it can. -/
def Gives (text name : List Char) : Prop :=
  ∃ blanks rest, text = keyword ++ (blanks ++ (name ++ rest)) ∧
    blanks ≠ [] ∧ (∀ c ∈ blanks, isBlank c = true) ∧ Maximal isNameChar name rest

theorem not_isNameChar_of_isBlank {c : Char} (blank : isBlank c = true) : isNameChar c = false := by
  simp only [isBlank, Bool.or_eq_true, beq_iff_eq] at blank
  obtain rfl | rfl := blank
  · decide
  · decide

/-- The blanks before a name are all there are. -/
theorem dropWhile_isBlank {blanks name rest : List Char} (all : ∀ c ∈ blanks, isBlank c = true)
    (named : Maximal isNameChar name rest) :
    (blanks ++ (name ++ rest)).dropWhile isBlank = name ++ rest := by
  obtain ⟨c, more, rfl⟩ := List.exists_cons_of_ne_nil named.nonempty
  have visible : ¬ isBlank c = true := by
    intro blank
    have := named.all c List.mem_cons_self
    rw [not_isNameChar_of_isBlank blank] at this
    contradiction
  rw [List.dropWhile_append_of_pos all, List.cons_append, List.dropWhile_cons_of_neg visible]

theorem nameHere?_eq_some_iff {text name : List Char} :
    nameHere? text = some name ↔ Gives text name := by
  unfold nameHere?
  constructor
  · intro found
    split at found
    · next begins =>
      obtain ⟨following, rfl⟩ := List.isPrefixOf_iff_prefix.1 begins
      rw [List.drop_left] at found
      dsimp only at found
      split at found
      · next visible =>
        obtain ⟨blank, nonempty⟩ := visible
        cases found
        refine ⟨following.takeWhile isBlank, (following.dropWhile isBlank).dropWhile isNameChar, ?_,
          ?_, List.all_eq_true.1 List.all_takeWhile, by simpa using nonempty,
          List.all_eq_true.1 List.all_takeWhile, any_head?_dropWhile _ _⟩
        · rw [List.takeWhile_append_dropWhile, List.takeWhile_append_dropWhile]
        · obtain ⟨c, more, rfl, holds⟩ : ∃ c more, following = c :: more ∧ isBlank c = true := by
            cases following with
            | nil => simp at blank
            | cons c more => exact ⟨c, more, rfl, by simpa using blank⟩
          rw [List.takeWhile_cons_of_pos holds]
          exact List.cons_ne_nil _ _
      · contradiction
    · contradiction
  · rintro ⟨blanks, rest, rfl, nonempty, all, named⟩
    have head : (blanks ++ (name ++ rest)).head?.any isBlank = true := by
      obtain ⟨c, more, rfl⟩ := List.exists_cons_of_ne_nil nonempty
      simpa using all c List.mem_cons_self
    rw [if_pos (List.isPrefixOf_iff_prefix.2 (List.prefix_append _ _)), List.drop_left]
    dsimp only
    rw [dropWhile_isBlank all named, named.takeWhile_eq]
    exact if_pos ⟨head, by simpa using named.nonempty⟩

instance (text name : List Char) : Decidable (Gives text name) :=
  decidable_of_iff _ nameHere?_eq_some_iff

/-- Only one name is given. -/
theorem Gives.iff {text name : List Char} (gives : Gives text name) (other : List Char) :
    Gives text other ↔ other = name := by
  rw [← nameHere?_eq_some_iff] at gives ⊢
  rw [gives, Option.some_inj, eq_comm]

theorem not_gives_of_none {text : List Char} (none : nameHere? text = none) (name : List Char) :
    ¬ Gives text name := by
  rw [← nameHere?_eq_some_iff, none]
  exact Option.some_ne_none name ∘ Eq.symm

/-! ## Comments -/

/-- What may stand between `//` and a keyword. -/
def LineBody (body : List Char) : Prop := '\n' ∉ body

/-- What may stand between `/*` and a keyword. -/
def BlockBody (body : List Char) : Prop := ¬ ['*', '/'] <:+: body ∧ body.getLast? ≠ some '*'

instance (body : List Char) : Decidable (LineBody body) := inferInstanceAs (Decidable ('\n' ∉ body))

instance (body : List Char) : Decidable (BlockBody body) :=
  inferInstanceAs (Decidable (¬ ['*', '/'] <:+: body ∧ body.getLast? ≠ some '*'))

/-- Behind some text, a keyword with a name stands at a place, with a body of a kind up
to it. -/
def GivesAt (Body : List Char → Prop) (text : List Char) (place : Nat) (name : List Char) : Prop :=
  Body (text.take place) ∧ Gives (text.drop place) name

section

variable {Body : List Char → Prop} {c : Char} {rest name : List Char}

theorem not_givesAt_nil (place : Nat) : ¬ GivesAt Body [] place name :=
  fun given => not_gives_of_none rfl name (List.drop_nil ▸ given.2)

theorem givesAt_zero (empty : Body []) (text name : List Char) :
    GivesAt Body text 0 name ↔ Gives text name :=
  and_iff_right empty

theorem givesAt_succ {Body' : List Char → Prop} {P : Prop}
    (step : ∀ body, Body (c :: body) ↔ P ∧ Body' body) (place : Nat) :
    GivesAt Body (c :: rest) (place + 1) name ↔ P ∧ GivesAt Body' rest place name := by
  rw [GivesAt, List.take_succ_cons, List.drop_succ_cons, step, and_assoc, GivesAt]

/-- A reader goes on behind a character where no name is given, unless the character ends
the comment. -/
theorem exists_isFirst_cons {Body' : List Char → Prop} {P : Prop}
    (none : ∀ other, ¬ GivesAt Body (c :: rest) 0 other)
    (step : ∀ body, Body (c :: body) ↔ P ∧ Body' body) :
    (∃ place, IsFirst (GivesAt Body (c :: rest)) place name) ↔
      P ∧ ∃ place, IsFirst (GivesAt Body' rest) place name := by
  rw [exists_isFirst_succ none]
  simp only [IsFirst, givesAt_succ step]
  constructor
  · rintro ⟨place, ⟨going, given⟩, before⟩
    exact ⟨going, place, given, fun earlier lt other found => before earlier lt other ⟨going, found⟩⟩
  · rintro ⟨going, place, given, before⟩
    exact ⟨place, ⟨going, given⟩, fun earlier lt other found => before earlier lt other found.2⟩

end

theorem lineBody_nil : LineBody [] := List.not_mem_nil

theorem lineBody_cons (c : Char) (body : List Char) :
    LineBody (c :: body) ↔ c ≠ '\n' ∧ LineBody body := by
  rw [LineBody, List.mem_cons, not_or, ne_comm, LineBody]

theorem inLine?_eq_some_iff {comment name : List Char} :
    inLine? comment = some name ↔ ∃ place, IsFirst (GivesAt LineBody comment) place name := by
  induction comment with
  | nil => simp [inLine?, IsFirst, not_givesAt_nil]
  | cons c rest ih =>
    have zero := givesAt_zero lineBody_nil (c :: rest)
    rw [inLine?]
    split
    · next here found =>
      have gives := nameHere?_eq_some_iff.1 found
      rw [exists_isFirst_zero fun other => (zero other).trans (gives.iff other), Option.some_inj,
        eq_comm]
    · next found =>
      have none (other : List Char) := mt (zero other).1 (not_gives_of_none found other)
      rw [exists_isFirst_cons none (lineBody_cons c), ← ih]
      split
      · next feed => simp [feed]
      · next going => exact (and_iff_right going).symm

theorem blockBody_nil : BlockBody [] := by simp [BlockBody]

/-- The star that was just read, if one was. -/
def starRead (star : Bool) : List Char := if star then ['*'] else []

/-- A star is all that counts of the character before a body. -/
theorem blockBody_cons (c : Char) (body : List Char) :
    BlockBody (c :: body) ↔ BlockBody (starRead (c == '*') ++ body) := by
  by_cases same : c = '*'
  · subst same
    rfl
  · have other : ¬ ['*', '/'] <+: c :: body := fun begins =>
      same (List.cons_prefix_cons.1 begins).1.symm
    have last : (c :: body).getLast? = some '*' ↔ body.getLast? = some '*' := by
      rw [List.getLast?_cons]
      cases body.getLast? with
      | none => simpa using same
      | some d => rfl
    rw [beq_false_of_ne same, BlockBody, List.infix_cons_iff, or_iff_right other, Ne, last]
    rfl

/-- A block comment goes on behind a character unless that is a slash after a star. -/
theorem blockBody_starRead_cons (star : Bool) (c : Char) (body : List Char) :
    BlockBody (starRead star ++ c :: body) ↔
      ¬ (star = true ∧ c = '/') ∧ BlockBody (starRead (c == '*') ++ body) := by
  rw [← blockBody_cons]
  cases star with
  | false => simp [starRead]
  | true =>
    have begins : ['*', '/'] <+: '*' :: c :: body ↔ c = '/' := by
      simp [List.cons_prefix_cons, eq_comm]
    change BlockBody ('*' :: c :: body) ↔ _
    rw [BlockBody, List.infix_cons_iff, begins, List.getLast?_cons_cons, not_or, and_assoc]
    simp [BlockBody]

theorem inBlock?_eq_some_iff {star : Bool} {comment name : List Char} :
    inBlock? star comment = some name ↔
      ∃ place, IsFirst (GivesAt (fun body => BlockBody (starRead star ++ body)) comment)
        place name := by
  induction comment generalizing star with
  | nil => simp [inBlock?, IsFirst, not_givesAt_nil]
  | cons c rest ih =>
    rw [inBlock?]
    split
    · next here found =>
      cases star with
      | true => contradiction
      | false =>
        have gives := nameHere?_eq_some_iff.1 found
        have zero := givesAt_zero blockBody_nil (c :: rest)
        exact (Option.some_inj.trans eq_comm).trans
          (exists_isFirst_zero fun other => (zero other).trans (gives.iff other)).symm
    · next found =>
      have none (other : List Char) :
          ¬ GivesAt (fun body => BlockBody (starRead star ++ body)) (c :: rest) 0 other := by
        rintro ⟨body, gives⟩
        cases star with
        | true => exact body.2 rfl
        | false => exact not_gives_of_none found other gives
      rw [exists_isFirst_cons none (blockBody_starRead_cons star c), ← ih]
      split
      · next ended => simp [ended]
      · next going => exact (and_iff_right going).symm

/-! ## Openings -/

/-- In a text, a comment seems to open at `i`, a keyword with a name stands at `j`, and what
stands between them may stand in such a comment before a keyword. -/
def Reaches (text : List Char) (i j : Nat) (name : List Char) : Prop :=
  i + 2 ≤ j ∧ Gives (text.drop j) name ∧
    (['/', '/'] <+: text.drop i ∧ LineBody ((text.drop (i + 2)).take (j - (i + 2))) ∨
      ['/', '*'] <+: text.drop i ∧ BlockBody ((text.drop (i + 2)).take (j - (i + 2))))

instance (text : List Char) (i j : Nat) (name : List Char) : Decidable (Reaches text i j name) :=
  inferInstanceAs (Decidable (_ ∧ _))

section

variable {c : Char} {rest comment name : List Char} {i j : Nat}

theorem reaches_succ : Reaches (c :: rest) (i + 1) (j + 1) name ↔ Reaches rest i j name := by
  simp only [Reaches, List.drop_succ_cons, Nat.add_right_comm i 1 2, Nat.add_le_add_iff_right,
    Nat.add_sub_add_right]

theorem Reaches.place_pos (reaches : Reaches rest i j name) : ∃ earlier, j = earlier + 1 :=
  Nat.exists_eq_add_one_of_ne_zero (by have := reaches.1; omega)

theorem reaches_line : Reaches ('/' :: '/' :: comment) 0 (j + 2) name ↔
    GivesAt LineBody comment j name := by
  simp [Reaches, GivesAt, List.cons_prefix_cons, and_comm]

theorem reaches_block : Reaches ('/' :: '*' :: comment) 0 (j + 2) name ↔
    GivesAt BlockBody comment j name := by
  simp [Reaches, GivesAt, List.cons_prefix_cons, and_comm]

/-- The first keyword behind an opening, counted from the opening. -/
theorem exists_isFirst_opening {At : Nat → List Char → Prop}
    (shift : ∀ j name, Reaches rest 0 (j + 2) name ↔ At j name) :
    (∃ j, IsFirst (Reaches rest 0) j name) ↔ ∃ j, IsFirst At j name := by
  rw [exists_isFirst_succ fun other reaches => absurd reaches.1 (by decide),
    exists_isFirst_succ fun other reaches => absurd reaches.1 (by decide)]
  simp only [IsFirst, Nat.add_assoc, Nat.reduceAdd, shift]

theorem opening_eq_some_iff :
    (if c = '/' then afterSlash? rest else none) = some name ↔
      ∃ j, IsFirst (Reaches (c :: rest) 0) j name := by
  -- Without an opening nothing is reached.
  have closed (text : List Char) (line : ¬ ['/', '/'] <+: text) (block : ¬ ['/', '*'] <+: text) :
      none = some name ↔ ∃ j, IsFirst (Reaches text 0) j name := by
    simp [IsFirst, Reaches, line, block]
  split
  · next slash =>
    subst slash
    unfold afterSlash?
    split
    · rw [inLine?_eq_some_iff]
      exact (exists_isFirst_opening fun j name => reaches_line).symm
    · rw [inBlock?_eq_some_iff]
      exact (exists_isFirst_opening fun j name => reaches_block).symm
    · next line block =>
      apply closed
      · rintro ⟨comment, same⟩
        exact line comment (List.cons.inj same).2.symm
      · rintro ⟨comment, same⟩
        exact block comment (List.cons.inj same).2.symm
  · next other =>
    apply closed
    · exact fun begins => other (List.cons_prefix_cons.1 begins).1.symm
    · exact fun begins => other (List.cons_prefix_cons.1 begins).1.symm

/-- The first place from which a name is reached, and the first name from there. -/
def Leftmost (text : List Char) (i j : Nat) (name : List Char) : Prop :=
  IsFirst (Reaches text i) j name ∧ ∀ earlier < i, ∀ place other, ¬ Reaches text earlier place other

theorem isFirst_reaches_succ :
    IsFirst (Reaches (c :: rest) (i + 1)) (j + 1) name ↔ IsFirst (Reaches rest i) j name := by
  rw [IsFirst, reaches_succ, IsFirst]
  refine and_congr_right fun _ => ⟨fun before earlier lt other reaches => ?_,
    fun before earlier lt other reaches => ?_⟩
  · exact before (earlier + 1) (Nat.succ_lt_succ lt) other (reaches_succ.2 reaches)
  · obtain ⟨earlier, rfl⟩ := reaches.place_pos
    exact before earlier (Nat.lt_of_succ_lt_succ lt) other (reaches_succ.1 reaches)

/-- Where nothing is reached from the start, the start does not count. -/
theorem exists_leftmost_cons (none : ∀ place other, ¬ Reaches (c :: rest) 0 place other) :
    (∃ i j, Leftmost (c :: rest) i j name) ↔ ∃ i j, Leftmost rest i j name := by
  constructor
  · rintro ⟨i, j, first, before⟩
    cases i with
    | zero => exact absurd first.1 (none j name)
    | succ i =>
      obtain ⟨j, rfl⟩ := first.1.place_pos
      refine ⟨i, j, isFirst_reaches_succ.1 first, fun earlier lt place other reaches => ?_⟩
      exact before (earlier + 1) (Nat.succ_lt_succ lt) (place + 1) other (reaches_succ.2 reaches)
  · rintro ⟨i, j, first, before⟩
    refine ⟨i + 1, j + 1, isFirst_reaches_succ.2 first, fun earlier lt place other reaches => ?_⟩
    cases earlier with
    | zero => exact none place other reaches
    | succ earlier =>
      obtain ⟨place, rfl⟩ := reaches.place_pos
      exact before earlier (Nat.lt_of_succ_lt_succ lt) place other (reaches_succ.1 reaches)

theorem first?_eq_some_iff {text : List Char} :
    first? text = some name ↔ ∃ i j, Leftmost text i j name := by
  induction text with
  | nil =>
    have none (i j : Nat) : ¬ Leftmost [] i j name := fun leftmost =>
      not_gives_of_none rfl name (List.drop_nil ▸ leftmost.1.1.2.1)
    simp [first?, none]
  | cons c rest ih =>
    rw [first?]
    cases found : if c = '/' then afterSlash? rest else none with
    | some here =>
      obtain ⟨place, first⟩ := opening_eq_some_iff.1 found
      constructor
      · intro same
        obtain rfl : here = name := by simpa using same
        exact ⟨0, place, first, by simp⟩
      · rintro ⟨i, j, leftmost, before⟩
        cases i with
        | zero => exact found.symm.trans (opening_eq_some_iff.2 ⟨j, leftmost⟩)
        | succ i => exact absurd first.1 (before 0 (Nat.succ_pos i) place here)
    | none =>
      have none (place : Nat) (other : List Char) : ¬ Reaches (c :: rest) 0 place other := by
        intro reaches
        obtain ⟨first, -, name, given⟩ := exists_isFirst reaches
        rw [opening_eq_some_iff.2 ⟨first, given⟩] at found
        contradiction
      rw [exists_leftmost_cons none, ← ih]
      rfl

/-- Where a name is reached, one is reached first. -/
theorem exists_leftmost {text : List Char} (reaches : Reaches text i j name) :
    ∃ i j name, Leftmost text i j name := by
  obtain ⟨first, -, -, ⟨place, other, reached⟩, before⟩ :=
    @exists_isFirst (fun i _ => ∃ j name, Reaches text i j name) name i ⟨j, name, reaches⟩
  obtain ⟨place, -, other, reached⟩ := exists_isFirst reached
  exact ⟨first, place, other, reached, fun earlier lt place other found =>
    before earlier lt [] ⟨place, other, found⟩⟩

end

/-- **The name found is the leftmost one.**  No name is found if none is reached from any
opening.  Otherwise take the first opening from which one is reached, and the first keyword
reached from there: the name found is the one given by that keyword, and no other. -/
theorem detect?_eq_leftmost (text : List Char) :
    (detect? text = none ↔ ∀ i j name, ¬ Reaches text i j name) ∧
      ∀ name, detect? text = some name ↔ ∃ i j, Reaches text i j name ∧
        (∀ earlier < i, ∀ place other, ¬ Reaches text earlier place other) ∧
          ∀ earlier < j, ∀ other, ¬ Reaches text i earlier other := by
  rw [detect?_eq_first?]
  refine ⟨⟨fun none i j name reaches => ?_, fun none => ?_⟩, fun name => ?_⟩
  · obtain ⟨i, j, name, leftmost⟩ := exists_leftmost reaches
    rw [first?_eq_some_iff.2 ⟨i, j, leftmost⟩] at none
    contradiction
  · rw [Option.eq_none_iff_forall_ne_some]
    intro name found
    obtain ⟨i, j, leftmost⟩ := first?_eq_some_iff.1 found
    exact none i j name leftmost.1.1
  · rw [first?_eq_some_iff]
    constructor
    · rintro ⟨i, j, ⟨reaches, first⟩, before⟩
      exact ⟨i, j, reaches, before, first⟩
    · rintro ⟨i, j, reaches, before, first⟩
      exact ⟨i, j, ⟨reaches, first⟩, before⟩

end InlineMarkup.Pragma
