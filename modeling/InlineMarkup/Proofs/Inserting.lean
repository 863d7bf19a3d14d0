import InlineMarkup.Proofs.Fork
import InlineMarkup.Proofs.Pragmas

/-!
# InlineMarkup.Proofs.Inserting

Text inserted after a `>`.  Two readers hardly notice it:

* `Group.read_insert`: code in braces only gets longer, if there are no braces in what is inserted;
* `Pragma.detect?_insert`: a pragma keeps its name, if no comment begins or ends in what is
  inserted, and the name does not run on through the place (`Pragma.RunsThrough`).
-/

namespace InlineMarkup

open Cursor (Fork)

/-! ## Code with something inserted -/

namespace Text

/-- Characters that leave every state of a reader as it is only move its end, if it is
after them. -/
theorem extent_insert {σ : Type} {read : σ → Char → Option σ} {first mid last : List Char}
    (inert : ∀ c ∈ mid, ∀ state, read state c = some state) {state : σ}
    (beyond : ∀ n, extent read state (first ++ last) = some n → first.length < n) :
    extent read state (first ++ (mid ++ last)) =
      (extent read state (first ++ last)).map (· + mid.length) := by
  induction first generalizing state with
  | nil =>
    simp only [List.nil_append]
    induction mid with
    | nil => simp
    | cons c mid ih =>
      rw [List.cons_append, extent_cons, inert c List.mem_cons_self]
      dsimp only
      rw [ih fun d mem => inert d (List.mem_cons_of_mem _ mem), Option.map_map]
      rfl
  | cons c first ih =>
    rw [List.cons_append, List.cons_append, extent_cons, extent_cons]
    rw [List.cons_append, extent_cons] at beyond
    cases taken : read state c with
    | none =>
      have inside := beyond 1 (by rw [taken])
      simp at inside
    | some next =>
      dsimp only
      rw [ih fun n found => ?_]
      · cases extent read next (first ++ last) with
        | none => rfl
        | some n => simp; omega
      · have inside := beyond (n + 1) (by rw [taken]; dsimp only; rw [found]; rfl)
        simpa using inside

end Text

/-- Trimming keeps a text without white space at its ends. -/
theorem Text.trim_eq_self {text : List Char} (starts : text.head?.any Unicode.isSpace = false)
    (stops : text.getLast?.any Unicode.isSpace = false) : trim text = text := by
  have first {text : List Char} (starts : text.head?.any Unicode.isSpace = false) :
      text.dropWhile Unicode.isSpace = text := by
    cases text with
    | nil => rfl
    | cons c text => exact List.dropWhile_cons_of_neg (by simpa using starts)
  rw [trim, trimStart, first starts, trimEnd, first, List.reverse_reverse]
  rwa [List.head?_reverse]

/-- Two texts of which one has something inserted are the same after it.  Where they end right
after it, both end with a `>`. -/
theorem Cursor.fork_insert {cur cur' : Cursor} {first mid more rest : List Char}
    (begins : cur.rest = first ++ (more ++ rest))
    (begins' : cur'.rest = first ++ (mid ++ (more ++ rest)))
    (last : first.getLast? = some '>') (last' : mid.getLast? = some '>') :
    Fork [] [] (cur.advance (first ++ more).length)
      (cur'.advance (first ++ (mid ++ more)).length) := by
  have split : cur.rest = (first ++ more) ++ rest := by rw [begins, List.append_assoc]
  have split' : cur'.rest = (first ++ (mid ++ more)) ++ rest := by
    rw [begins', List.append_assoc, List.append_assoc]
  refine ⟨⟨rest, ?_, ?_⟩, .inl ?_⟩
  · rw [Cursor.rest_of_append split, List.append_nil]
  · rw [Cursor.rest_of_append split', List.append_nil]
  · rw [Cursor.previous?_advance, Cursor.previous?_advance, split, split', List.take_left,
      List.take_left, List.getLast?_append, List.getLast?_append, List.getLast?_append, last, last']
    cases more.getLast? with
    | none => rfl
    | some c => rfl

/-- Code in braces with something inserted. -/
theorem Group.read_insert {cur cur' : Cursor} {first mid inner after : List Char}
    (begins : cur.rest = '\x7b' :: (first ++ after))
    (begins' : cur'.rest = '\x7b' :: (first ++ (mid ++ after)))
    (plain : ∀ c ∈ mid, c ≠ '\x7b' ∧ c ≠ '\x7d')
    (last : first.getLast? = some '>') (last' : mid.getLast? = some '>')
    (code : (Group.read cur).code = first ++ inner) :
    (Group.read cur').code = first ++ (mid ++ inner) ∧
      Fork [] [] (Group.read cur).cursor (Group.read cur').cursor := by
  have inert : ∀ c ∈ mid, ∀ state, Text.readGroup state c = some state := by
    intro c mem state
    obtain ⟨notOpening, notClosing⟩ := plain c mem
    unfold Text.readGroup
    rw [if_neg notOpening, if_neg notClosing]
  have opened : cur.next.rest = first ++ after := Cursor.rest_next begins
  have opened' : cur'.next.rest = first ++ (mid ++ after) := Cursor.rest_next begins'
  unfold Group.read Cursor.read at code ⊢
  rw [opened] at code ⊢
  rw [opened']
  cases found : Text.extent Text.readGroup 0 (first ++ after) with
  | none =>
    rw [Text.extent_insert inert (by rw [found]; simp), found]
    rw [found] at code
    dsimp only [Option.map_none] at code ⊢
    obtain rfl := List.append_cancel_left code
    refine ⟨rfl, ?_⟩
    rw [Cursor.toEnd, Cursor.toEnd, opened, opened']
    exact Cursor.fork_insert (show cur.next.rest = first ++ (after ++ []) by simp [opened])
      (by simp [opened']) last last'
  | some n =>
    have bounds := Text.extent_bounds found
    rw [found] at code
    dsimp only at code
    -- The group ends after `inner`, at its brace.
    have size : n = (first ++ inner).length + 1 := by
      have size := congrArg List.length code
      rw [List.length_take] at size
      omega
    obtain ⟨tail, whole⟩ : ∃ tail, after = inner ++ tail := by
      have taken : inner <+: after := by
        have taken : first ++ inner <+: first ++ after := code ▸ List.take_prefix _ _
        exact (List.prefix_append_right_inj first).1 taken
      exact taken.imp fun _ => Eq.symm
    obtain ⟨c, rest, rfl⟩ : ∃ c rest, tail = c :: rest := by
      refine List.exists_cons_of_ne_nil fun none => ?_
      rw [whole, none, List.append_nil] at bounds
      omega
    subst whole
    have found' : Text.extent Text.readGroup 0 (first ++ (mid ++ (inner ++ c :: rest))) =
        some (n + mid.length) := by
      rw [Text.extent_insert inert fun m again => ?_, found]
      · rfl
      · obtain rfl := Option.some.inj (found.symm.trans again)
        rw [size, List.length_append]
        omega
    rw [found']
    dsimp only
    have length : n + mid.length = (first ++ (mid ++ (inner ++ [c]))).length := by
      rw [size]
      simp only [List.length_append, List.length_cons, List.length_nil]
      omega
    constructor
    · have less : n + mid.length - 1 = (first ++ (mid ++ inner)).length := by
        rw [size]
        simp only [List.length_append]
        omega
      have whole : first ++ (mid ++ (inner ++ c :: rest)) =
          (first ++ (mid ++ inner)) ++ c :: rest := by
        simp
      rw [less, whole, List.take_left]
    · rw [length, show n = (first ++ (inner ++ [c])).length by rw [size]; simp; omega]
      exact Cursor.fork_insert
        (show cur.next.rest = first ++ (inner ++ [c] ++ rest) by rw [opened]; simp)
        (by rw [opened']; simp) last last'

/-! ## Pragmas -/

namespace Pragma

/-- A name may run on through the end of a text: it starts with what the text ends with. -/
def RunsThrough (text name : List Char) : Prop :=
  ∃ start, start ≠ [] ∧ start <:+ text ∧ start <+: name

/-- Then it holds the last character of the text. -/
theorem RunsThrough.mem {text name : List Char} {c : Char} (runs : RunsThrough text name)
    (last : text.getLast? = some c) : c ∈ name := by
  obtain ⟨start, nonempty, ⟨before, rfl⟩, begins⟩ := runs
  obtain ⟨d, same⟩ := Option.ne_none_iff_exists'.1 (mt List.getLast?_eq_none_iff.1 nonempty)
  rw [List.getLast?_append, same, Option.some_or] at last
  obtain rfl := Option.some.inj last
  exact begins.subset (List.mem_of_getLast? same)

/-- The names that two texts give, if any, which go on differently after `text`: they are the
same, unless one of them runs on through its end. -/
def Kept (text : List Char) (given given' : Option (List Char)) : Prop :=
  given' = given ∨ ∃ name name', given = some name ∧ given' = some name' ∧ RunsThrough text name

namespace Kept

variable {c : Char} {text : List Char} {given given' other other' : Option (List Char)}

theorem refl (text : List Char) (given : Option (List Char)) : Kept text given given := .inl rfl

theorem cons (kept : Kept text given given') : Kept (c :: text) given given' := by
  refine kept.imp_right ?_
  rintro ⟨name, name', found, found', start, nonempty, ends, begins⟩
  exact ⟨name, name', found, found', start, nonempty, ends.trans (List.suffix_cons c text), begins⟩

theorem orElse (first : Kept text given given') (second : Kept text other other') :
    Kept text (given <|> other) (given' <|> other') := by
  obtain rfl | ⟨name, name', rfl, rfl, runs⟩ := first
  · cases given' with
    | none => simpa using second
    | some name => exact .inl rfl
  · exact .inr ⟨name, name', rfl, rfl, runs⟩

end Kept

/-- The keyword and blanks hold no `>`, so if one is met before a name ends, it is in the name. -/
theorem Gives.bracket {x y name : List Char} (gives : Gives (x ++ '>' :: y) name)
    (z : List Char) :
    Gives (x ++ '>' :: z) name ∨
      RunsThrough (x ++ ['>']) name ∧ ∃ name', Gives (x ++ '>' :: z) name' := by
  obtain ⟨blanks, rest, same, nonempty, all, named⟩ := gives
  have outside : '>' ∉ keyword ++ blanks := by
    rw [List.mem_append, not_or]
    exact ⟨by decide, fun mem => absurd (all _ mem) (by decide)⟩
  have whole : x ++ '>' :: y = (keyword ++ blanks) ++ (name ++ rest) := by rw [same]; simp
  obtain ⟨head, rfl, follows⟩ : ∃ head, x = (keyword ++ blanks) ++ head ∧
      name ++ rest = head ++ '>' :: y := by
    obtain ⟨within, longer, follows⟩ | shorter := List.append_eq_append_iff.1 whole
    · cases within with
      | nil => exact ⟨[], by simpa using longer.symm, by simpa using follows.symm⟩
      | cons c within =>
        obtain ⟨rfl, -⟩ := List.cons.inj follows
        exact absurd (longer ▸ by simp) outside
    · exact shorter
  obtain ⟨after, rfl, rfl⟩ | ⟨within, rfl, further⟩ := List.append_eq_append_iff.1 follows
  · -- The name ends before the `>`.
    refine .inl ⟨blanks, after ++ '>' :: z, by simp, nonempty, all, named.nonempty, named.all, ?_⟩
    have stops := named.stops
    cases after with
    | nil => exact stops
    | cons c after => exact stops
  · cases within with
    | nil =>
      obtain rfl : rest = '>' :: y := further.symm
      exact absurd named.stops (by simp [show isNameChar '>' = true by decide])
    | cons c within =>
      obtain ⟨rfl, rfl⟩ := List.cons.inj further
      refine .inr ⟨⟨head ++ ['>'], by simp, ⟨keyword ++ blanks, by simp⟩, ⟨within, by simp⟩⟩,
        head ++ '>' :: z.takeWhile isNameChar, blanks, z.dropWhile isNameChar, ?_, nonempty, all,
        by simp, ?_, any_head?_dropWhile _ _⟩
      · simp
      · intro c mem
        simp only [List.mem_append, List.mem_cons] at mem
        obtain mem | rfl | mem := mem
        · exact named.all c (List.mem_append_left _ mem)
        · decide
        · exact List.all_eq_true.1 List.all_takeWhile c mem

theorem kept_nameHere? (x y z : List Char) :
    Kept (x ++ ['>']) (nameHere? (x ++ '>' :: y)) (nameHere? (x ++ '>' :: z)) := by
  cases here : nameHere? (x ++ '>' :: y) with
  | some name =>
    obtain gives | ⟨runs, name', gives⟩ := (nameHere?_eq_some_iff.1 here).bracket z
    · exact .inl (nameHere?_eq_some_iff.2 gives)
    · exact .inr ⟨name, name', rfl, nameHere?_eq_some_iff.2 gives, runs⟩
  | none =>
    refine .inl (Option.eq_none_iff_forall_ne_some.2 fun name there => ?_)
    obtain gives | ⟨-, name', gives⟩ := (nameHere?_eq_some_iff.1 there).bracket y
    · exact not_gives_of_none here name gives
    · exact not_gives_of_none here name' gives

/-! Each reader tries the place it is at, and goes on from there. -/

theorem inLine?_cons (c : Char) (rest : List Char) :
    inLine? (c :: rest) =
      (nameHere? (c :: rest) <|> if c = '\n' then none else inLine? rest) := by
  rw [inLine?]
  cases nameHere? (c :: rest) with
  | none => rfl
  | some name => rfl

theorem inBlock?_cons (star : Bool) (c : Char) (rest : List Char) :
    inBlock? star (c :: rest) =
      ((if star then none else nameHere? (c :: rest)) <|>
        if star ∧ c = '/' then none else inBlock? (c == '*') rest) := by
  rw [inBlock?]
  cases if star then none else nameHere? (c :: rest) with
  | none => rfl
  | some name => rfl

theorem afterSlash?_cons (c : Char) (rest : List Char) :
    afterSlash? (c :: rest) =
      if c = '/' then inLine? rest else if c = '*' then inBlock? false rest else none := by
  by_cases slash : c = '/'
  · subst slash
    rfl
  · by_cases star : c = '*'
    · subst star
      rfl
    · simp [afterSlash?, slash, star]

theorem nameHere?_of_ne {c : Char} (other : c ≠ '@') (rest : List Char) :
    nameHere? (c :: rest) = none := by
  have begins : keyword.isPrefixOf (c :: rest) = false := by
    simp [keyword, List.isPrefixOf, other.symm]
  simp [nameHere?, begins]

/-- Text in which no comment begins or ends, and no keyword stands. -/
structure Mute (mid : List Char) : Prop where
  plain : ∀ c ∈ mid, c ≠ '@' ∧ c ≠ '\n' ∧ c ≠ '*'
  closed : ∀ rest, first? (mid ++ rest) = first? rest

section

variable {mid : List Char} (mute : Mute mid) (x after : List Char)

include mute

theorem Mute.inLine?_eq : inLine? (mid ++ after) = inLine? after := by
  obtain ⟨plain, -⟩ := mute
  induction mid with
  | nil => rfl
  | cons c mid ih =>
    obtain ⟨noKeyword, noFeed, -⟩ := plain c List.mem_cons_self
    rw [List.cons_append, inLine?_cons, nameHere?_of_ne noKeyword, if_neg noFeed,
      ih fun d mem => plain d (List.mem_cons_of_mem c mem)]
    rfl

theorem Mute.inBlock?_eq : inBlock? false (mid ++ after) = inBlock? false after := by
  obtain ⟨plain, -⟩ := mute
  induction mid with
  | nil => rfl
  | cons c mid ih =>
    obtain ⟨noKeyword, -, noStar⟩ := plain c List.mem_cons_self
    rw [List.cons_append, inBlock?_cons, nameHere?_of_ne noKeyword, if_neg (by simp),
      if_neg (by simp), beq_false_of_ne noStar,
      ih fun d mem => plain d (List.mem_cons_of_mem c mem)]
    rfl

theorem kept_inLine? :
    Kept (x ++ ['>']) (inLine? (x ++ '>' :: after)) (inLine? (x ++ '>' :: (mid ++ after))) := by
  induction x with
  | nil =>
    simp only [List.nil_append]
    rw [inLine?_cons, inLine?_cons, mute.inLine?_eq]
    exact .refl _ _
  | cons c x ih =>
    simp only [List.cons_append, inLine?_cons]
    refine (kept_nameHere? (c :: x) after (mid ++ after)).orElse ?_
    split
    · exact .refl _ _
    · exact ih.cons

theorem kept_inBlock? (star : Bool) :
    Kept (x ++ ['>']) (inBlock? star (x ++ '>' :: after))
      (inBlock? star (x ++ '>' :: (mid ++ after))) := by
  induction x generalizing star with
  | nil =>
    have bracket (star : Bool) (rest : List Char) :
        inBlock? star ('>' :: rest) = inBlock? false rest := by
      rw [inBlock?_cons, nameHere?_of_ne (by decide)]
      simp
    simp only [List.nil_append, bracket, mute.inBlock?_eq]
    exact .refl _ _
  | cons c x ih =>
    simp only [List.cons_append, inBlock?_cons]
    refine Kept.orElse ?_ ?_
    · split
      · exact .refl _ _
      · exact kept_nameHere? (c :: x) after (mid ++ after)
    · split
      · exact .refl _ _
      · exact (ih _).cons

theorem kept_afterSlash? :
    Kept (x ++ ['>']) (afterSlash? (x ++ '>' :: after))
      (afterSlash? (x ++ '>' :: (mid ++ after))) := by
  cases x with
  | nil => exact .refl _ _
  | cons c x =>
    simp only [List.cons_append, afterSlash?_cons]
    split
    · exact (kept_inLine? mute x after).cons
    · split
      · exact (kept_inBlock? mute x after false).cons
      · exact .refl _ _

theorem kept_first? :
    Kept (x ++ ['>']) (first? (x ++ '>' :: after)) (first? (x ++ '>' :: (mid ++ after))) := by
  induction x with
  | nil =>
    have bracket (rest : List Char) : first? ('>' :: rest) = first? rest := by
      rw [first?, if_neg (by decide)]
      rfl
    simp only [List.nil_append, bracket, mute.closed]
    exact .refl _ _
  | cons c x ih =>
    simp only [List.cons_append, first?]
    refine Kept.orElse ?_ ih.cons
    split
    · exact (kept_afterSlash? mute x after).cons
    · exact .refl _ _

end

/-- A pragma keeps its name, unless that runs on through the place. -/
theorem detect?_insert {first mid after : List Char} (mute : Mute mid)
    (last : first.getLast? = some '>')
    (apart : ∀ name, detect? (first ++ after) = some name → ¬ RunsThrough first name) :
    detect? (first ++ (mid ++ after)) = detect? (first ++ after) := by
  obtain ⟨x, rfl⟩ := List.getLast?_eq_some_iff.1 last
  have split (rest : List Char) : x ++ ['>'] ++ rest = x ++ '>' :: rest := by simp
  rw [split, detect?_eq_first?] at apart
  rw [split, split, detect?_eq_first?, detect?_eq_first?]
  obtain same | ⟨name, name', found, -, runs⟩ := kept_first? mute x after
  · exact same
  · exact absurd runs (apart name found)

end Pragma

end InlineMarkup
