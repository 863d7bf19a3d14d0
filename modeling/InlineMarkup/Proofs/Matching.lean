import InlineMarkup.Proofs.Pragmas

/-!
# InlineMarkup.Proofs.Matching

The name that a pragma gives is the one that its pattern matches, read leftmost first.  Each reader
is what one part of the pattern comes to:

* `Pragma.head?_namePattern`: the longest run of blanks is the only one behind which a name can
  stand, so `nameHere?` need not try another;
* `Pragma.findSome?_linePattern` and `Pragma.findSome?_blockPattern`: a lazy repetition tries the
  places behind an opening one after the other, as `inLine?` and `inBlock?` do;
* `Pragma.detect?_eq_capture?`: the first place at which there is a way to match.
-/

namespace InlineMarkup

namespace Text.Pattern

/-! ## Repeated characters -/

variable {set : CharClass} {group : Option (List Char)}

theorem ways_literal (text : List Char) (way : Way) :
    (literal text).ways way =
      if text.isPrefixOf way.rest then [⟨way.rest.drop text.length, way.group⟩] else [] := rfl

theorem ways_seq (first second : Pattern) (way : Way) :
    (seq first second).ways way = (first.ways way).flatMap second.ways := rfl

theorem ways_alt (first second : Pattern) (way : Way) :
    (alt first second).ways way = first.ways way ++ second.ways way := rfl

theorem ways_one_nil (set : CharClass) (group : Option (List Char)) :
    (one set).ways ⟨[], group⟩ = [] := rfl

theorem ways_one_cons (set : CharClass) (c : Char) (rest : List Char)
    (group : Option (List Char)) :
    (one set).ways ⟨c :: rest, group⟩ = if set.holds c then [⟨rest, group⟩] else [] := rfl

/-- A repetition of characters goes on behind each of them. -/
theorem ways_many_cons (greedy : Bool) (c : Char) (rest : List Char) :
    (many greedy (one set)).ways ⟨c :: rest, group⟩ =
      let more := if set.holds c then (many greedy (one set)).ways ⟨rest, group⟩ else []
      if greedy then more ++ [⟨c :: rest, group⟩] else ⟨c :: rest, group⟩ :: more := by
  rw [ways, List.length_cons, turns, ways_one_cons]
  by_cases here : set.holds c = true
  · simp [here, ways]
  · simp [here]

/-- A greedy repetition of characters tries the longest run first.  Behind each other one there is
still a character of the set. -/
theorem ways_greedy (text : List Char) :
    ∃ others, (many true (one set)).ways ⟨text, group⟩ =
        ⟨text.dropWhile set.holds, group⟩ :: others ∧
      ∀ way ∈ others, way.rest.head?.any set.holds = true := by
  induction text with
  | nil => exact ⟨[], rfl, by simp⟩
  | cons c rest ih =>
    obtain ⟨others, whole, longer⟩ := ih
    rw [ways_many_cons, whole]
    by_cases here : set.holds c = true
    · refine ⟨others ++ [⟨c :: rest, group⟩], by simp [here], ?_⟩
      intro way mem
      obtain before | last := List.mem_append.1 mem
      · exact longer way before
      · simp [List.mem_singleton.1 last, here]
    · exact ⟨[], by simp [here], by simp⟩

/-- The same for a repetition that takes place at least once. -/
theorem ways_atLeastOnce_cons (c : Char) (rest : List Char) :
    (atLeastOnce true (one set)).ways ⟨c :: rest, group⟩ =
      if set.holds c then (many true (one set)).ways ⟨rest, group⟩ else [] := by
  rw [atLeastOnce, ways, ways_one_cons]
  by_cases here : set.holds c = true
  · simp [here]
  · simp [here]

/-- What is tried behind a run of characters succeeds behind the longest run or not at all, if it
fails at every character of the run. -/
theorem findSome?_atLeastOnce {α : Type} {attempt : Way → Option α}
    (fails : ∀ way : Way, way.rest.head?.any set.holds = true → attempt way = none)
    (text : List Char) :
    ((atLeastOnce true (one set)).ways ⟨text, group⟩).findSome? attempt =
      if text.head?.any set.holds then attempt ⟨text.dropWhile set.holds, group⟩ else none := by
  cases text with
  | nil => rfl
  | cons c rest =>
    obtain ⟨others, whole, longer⟩ := @ways_greedy set group rest
    rw [ways_atLeastOnce_cons, whole]
    have none : others.findSome? attempt = none :=
      List.findSome?_eq_none_iff.2 fun way mem => fails way (longer way mem)
    by_cases here : set.holds c = true
    · cases found : attempt ⟨rest.dropWhile set.holds, group⟩ <;> simp [here, found, none]
    · simp [here]

theorem head?_atLeastOnce (text : List Char) :
    ((atLeastOnce true (one set)).ways ⟨text, group⟩).head? =
      if text.head?.any set.holds then some ⟨text.dropWhile set.holds, group⟩ else none := by
  cases text with
  | nil => rfl
  | cons c rest =>
    obtain ⟨others, whole, -⟩ := @ways_greedy set group rest
    rw [ways_atLeastOnce_cons, whole]
    by_cases here : set.holds c = true
    · simp [here]
    · simp [here]

/-- A second pattern is tried on each way to match a first one in turn. -/
theorem head?_seq (first second : Pattern) (way : Way) :
    ((seq first second).ways way).head? =
      (first.ways way).findSome? fun next => (second.ways next).head? := by
  rw [ways_seq, List.head?_flatMap]

/-- What is left behind a run of characters tells the run. -/
theorem take_sub_dropWhile (p : Char → Bool) (text : List Char) :
    text.take (text.length - (text.dropWhile p).length) = text.takeWhile p := by
  have whole := List.takeWhile_append_dropWhile (p := p) (l := text)
  have lengths := congrArg List.length whole
  rw [List.length_append] at lengths
  have count : text.length - (text.dropWhile p).length = (text.takeWhile p).length := by omega
  rw [count]
  exact (congrArg (List.take _) whole.symm).trans List.take_left

theorem head?_group (text : List Char) :
    ((Pattern.group (atLeastOnce true (one set))).ways ⟨text, group⟩).head? =
      if text.head?.any set.holds then
        some ⟨text.dropWhile set.holds, some (text.takeWhile set.holds)⟩
      else none := by
  rw [ways, List.head?_map, head?_atLeastOnce]
  by_cases here : text.head?.any set.holds = true
  · simp [here, take_sub_dropWhile]
  · simp [here]

end Text.Pattern

namespace Pragma

open Text (CharClass Pattern)
open Text.Pattern

/-! ## The parts of the pattern -/

theorem holds_blank : (CharClass.among [' ', '\t']).holds = isBlank := by
  funext c
  rw [Bool.eq_iff_iff]
  simp [CharClass.holds, CharClass.among, isBlank]

theorem holds_name : (CharClass.visibleExcept ['*']).holds = isNameChar := by
  funext c
  rw [Bool.eq_iff_iff]
  simp [CharClass.holds, CharClass.visibleExcept, isNameChar, and_comm]

/-- The keyword and its name are matched where they are read. -/
theorem head?_namePattern (text : List Char) (group : Option (List Char)) :
    ((namePattern.ways ⟨text, group⟩).head?).map Way.group = (nameHere? text).map some := by
  -- Where a blank stands there is no name, so the blanks before a name are all there are.
  have fails (way : Way) (blank : way.rest.head?.any (CharClass.among [' ', '\t']).holds = true) :
      ((Pattern.group (atLeastOnce true (one (.visibleExcept ['*'])))).ways way).head? = none := by
    rw [head?_group, if_neg]
    rw [holds_blank] at blank
    rw [holds_name]
    cases found : way.rest.head? with
    | none => simp
    | some c =>
      rw [found] at blank
      simpa using not_isNameChar_of_isBlank blank
  rw [namePattern, head?_seq, ways, nameHere?]
  by_cases begins : keyword.isPrefixOf text = true
  · have begins' : ['@', 'j', 's', 'x'].isPrefixOf text = true := begins
    rw [if_pos begins, if_pos begins', List.findSome?_cons, head?_seq,
      findSome?_atLeastOnce fails, holds_blank, head?_group, holds_name]
    dsimp only [keyword]
    generalize text.drop _ = following
    by_cases blank : following.head?.any isBlank = true
    · rw [if_pos blank]
      cases following.dropWhile isBlank with
      | nil => simp
      | cons c more => by_cases named : isNameChar c = true <;> simp [blank, named]
    · simp [blank]
  · have begins' : ¬ ['@', 'j', 's', 'x'].isPrefixOf text = true := begins
    simp [begins, begins']

theorem holds_lineRest (c : Char) : (CharClass.except ['\n']).holds c = true ↔ c ≠ '\n' := by
  simp [CharClass.holds, CharClass.except]

/-- A name is tried for at each place of a line comment in turn. -/
theorem findSome?_linePattern (text : List Char) (group : Option (List Char)) :
    (linePattern.ways ⟨text, group⟩).findSome? (fun way => nameHere? way.rest) = inLine? text := by
  rw [linePattern]
  induction text with
  | nil => rfl
  | cons c rest ih =>
    rw [ways_many_cons, inLine?]
    cases found : nameHere? (c :: rest) with
    | some name => simp [found]
    | none => by_cases feed : c = '\n' <;> simp_all [holds_lineRest]

/-- What one turn leaves in a block comment: it reads a character, or stars and what follows them,
which must not end the comment. -/
def blockTurn? : List Char → Option (List Char)
  | [] => none
  | c :: rest =>
    if c = '*' then
      match rest.dropWhile (· == '*') with
      | [] => none
      | d :: more => if d = '/' then none else some more
    else some rest

theorem length_blockTurn? {text rest : List Char} (turn : blockTurn? text = some rest) :
    rest.length < text.length := by
  cases text with
  | nil => contradiction
  | cons c text =>
    rw [blockTurn?] at turn
    split at turn
    · have shorter := (List.dropWhile_sublist (· == '*') (l := text)).length_le
      split at turn
      · contradiction
      · next d more same =>
        rw [same, List.length_cons] at shorter
        split at turn
        · contradiction
        · cases turn
          rw [List.length_cons]
          omega
    · cases turn
      exact Nat.lt_succ_self _

/-- After a star, a block comment goes on behind what follows the stars. -/
theorem inBlock?_true (text : List Char) :
    inBlock? true text = (blockTurn? ('*' :: text)).bind (inBlock? false) := by
  rw [blockTurn?, if_pos rfl]
  induction text with
  | nil => rfl
  | cons c rest ih =>
    by_cases star : c = '*'
    · simpa [inBlock?, star] using ih
    · by_cases slash : c = '/' <;> simp [inBlock?, slash, beq_false_of_ne star]

theorem inBlock?_false (text : List Char) :
    inBlock? false text = (nameHere? text).or ((blockTurn? text).bind (inBlock? false)) := by
  cases text with
  | nil => rfl
  | cons c rest =>
    rw [inBlock?]
    cases nameHere? (c :: rest) with
    | some name => rfl
    | none =>
      by_cases star : c = '*'
      · simp [star, inBlock?_true]
      · simp [star, blockTurn?, beq_false_of_ne star]

theorem holds_star : (CharClass.among ['*']).holds = (· == '*') := by
  funext c
  rw [Bool.eq_iff_iff]
  simp [CharClass.holds, CharClass.among]

/-- There is at most one way to take a turn. -/
theorem ways_blockTurn (text : List Char) (group : Option (List Char)) :
    (alt (one (.except ['*'])) (.seq (.atLeastOnce true (one (.among ['*'])))
      (one (.except ['*', '/'])))).ways ⟨text, group⟩ =
        (blockTurn? text).toList.map fun rest => ⟨rest, group⟩ := by
  cases text with
  | nil => rfl
  | cons c rest =>
    rw [ways_alt, ways_one_cons, ways_seq, ways_atLeastOnce_cons, holds_star, blockTurn?]
    by_cases star : c = '*'
    · -- Behind fewer stars there is another star, with which no turn ends.
      obtain ⟨others, whole, longer⟩ := @ways_greedy (.among ['*']) group rest
      rw [holds_star] at whole longer
      have none : others.flatMap (one (.except ['*', '/'])).ways = [] := by
        refine List.flatMap_eq_nil_iff.2 fun way mem => ?_
        have starred := longer way mem
        obtain ⟨text, group⟩ := way
        cases text with
        | nil => rfl
        | cons d more =>
          obtain rfl : d = '*' := by simpa using starred
          rfl
      have first : (CharClass.except ['*']).holds c = false := by
        simp [CharClass.holds, CharClass.except, star]
      have visible : (rest.dropWhile (· == '*')).head? ≠ some '*' := by
        intro same
        have := List.head?_dropWhile_not (· == '*') rest
        simp [same] at this
      rw [first, whole, if_neg Bool.false_ne_true, List.nil_append, if_pos (by simp [star]),
        List.flatMap_cons, none, List.append_nil, if_pos star]
      cases left : rest.dropWhile (· == '*') with
      | nil => simp [ways_one_nil]
      | cons d more =>
        have other : d ≠ '*' := by simpa [left] using visible
        by_cases slash : d = '/' <;>
          simp [ways_one_cons, CharClass.holds, CharClass.except, other, slash]
    · have other : (CharClass.except ['*']).holds c = true := by
        simp [CharClass.holds, CharClass.except, star]
      simp [other, star]

/-- A name is tried for in a block comment after each turn. -/
theorem findSome?_blockPattern (text : List Char) (group : Option (List Char)) :
    (blockPattern.ways ⟨text, group⟩).findSome? (fun way => nameHere? way.rest) =
      inBlock? false text := by
  rw [blockPattern, ways]
  generalize count_eq : text.length = count
  have enough : text.length ≤ count := Nat.le_of_eq count_eq
  clear count_eq
  induction count generalizing text with
  | zero =>
    rw [List.length_eq_zero_iff.1 (Nat.le_zero.1 enough)]
    rfl
  | succ count ih =>
    rw [turns, ways_blockTurn, inBlock?_false]
    cases turn : blockTurn? text with
    | none => cases found : nameHere? text <;> simp [found]
    | some rest =>
      have shorter := length_blockTurn? turn
      have later := ih rest (by omega)
      cases found : nameHere? text <;> simp [found, shorter, later]

/-! ## The whole pattern -/

/-- The name that a comment gives from where it opens. -/
def opening? : List Char → Option (List Char)
  | [] => none
  | c :: rest => if c = '/' then afterSlash? rest else none

theorem head?_pattern (text : List Char) (group : Option (List Char)) :
    ((pattern.ways ⟨text, group⟩).head?).map Way.group = (opening? text).map some := by
  have named (ways : List Way) :
      (ways.findSome? fun way => (namePattern.ways way).head?).map Way.group =
        (ways.findSome? fun way => nameHere? way.rest).map some := by
    rw [List.map_findSome?, List.map_findSome?]
    exact congrArg (List.findSome? · ways) (funext fun way => head?_namePattern way.rest way.group)
  rw [pattern, head?_seq, named, ways_alt, ways_seq, ways_seq, ways_literal, ways_literal]
  refine congrArg (Option.map some) ?_
  match text with
  | [] => rfl
  | [c] => simp [opening?, afterSlash?]
  | c :: d :: comment =>
    dsimp only [List.isPrefixOf, opening?]
    by_cases slash : c = '/'
    · by_cases line : d = '/'
      · simpa [slash, line, afterSlash?] using findSome?_linePattern comment group
      · by_cases block : d = '*'
        · simpa [slash, block, afterSlash?] using findSome?_blockPattern comment group
        · simp [slash, line, block, Ne.symm line, Ne.symm block, afterSlash?]
    · simp [slash, Ne.symm slash]

theorem search_pattern (text : List Char) :
    (pattern.search text).map Way.group = (first? text).map some := by
  induction text with
  | nil => rfl
  | cons c rest ih =>
    change Option.map _ (Option.orElse _ fun _ => _) = Option.map _ (Option.orElse _ fun _ => _)
    rw [Option.orElse_eq_or, Option.orElse_eq_or, Option.map_or, Option.map_or, head?_pattern, ih]
    rfl

/-- **The name found is what the group of the pattern matches**, read leftmost first. -/
theorem detect?_eq_capture? (text : List Char) : detect? text = pattern.capture? text := by
  rw [detect?_eq_first?]
  calc first? text
      = ((first? text).map some).bind id := by simp [Option.bind_map]
    _ = ((pattern.search text).map Way.group).bind id := by rw [search_pattern]
    _ = pattern.capture? text := by rw [Option.bind_map]; rfl

/-- A name behind a keyword that has none, and behind a comment that gives none. -/
example : pattern.capture? "/* @jsx */ // @jsx @jsx\tm*".toList = some ['@', 'j', 's', 'x'] := by
  decide +kernel

end Pragma

end InlineMarkup
