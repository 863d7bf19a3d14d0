import InlineMarkup.Proofs.Layout
import InlineMarkup.Proofs.Places

/-!
# InlineMarkup.Proofs.Spacing

What white space does to the text around it.  Readers pass over it, take it
away, or keep it; here is said which of these they do with the white space that
a written tree may hold:

* `Text.trim_blank`, `Group.read_braced`, `isCommentOnly_blank`: white space
  inside braces is taken away;
* `Literal.normalize_gap`: of the text between tags and expressions, the layout
  is taken away and the literal text is kept.
-/

namespace InlineMarkup

open Unicode (isSpace)

namespace Text

/-! ## Blank texts -/

theorem Blank.reverse {text : List Char} (blank : Blank text) : Blank text.reverse :=
  fun c mem => blank c (List.mem_reverse.1 mem)

theorem Layout.blank {text : List Char} (layout : Layout text) : Blank text := by
  obtain rfl | ⟨blank, -⟩ := layout
  · exact blank_nil
  · exact blank

/-- A character that is not white space does not stand in a blank text. -/
theorem Blank.not_mem {text : List Char} (blank : Blank text) {c : Char}
    (visible : isSpace c = false) : c ∉ text := by
  intro mem
  rw [blank c mem] at visible
  contradiction

/-! ## Trimming -/

theorem trimStart_blank {space : List Char} (blank : Blank space) (text : List Char) :
    trimStart (space ++ text) = trimStart text := by
  induction space with
  | nil => rfl
  | cons c space ih =>
    obtain ⟨first, rest⟩ := List.forall_mem_cons.1 blank
    rw [trimStart, List.cons_append, List.dropWhile_cons_of_pos first]
    exact ih rest

theorem trimStart_eq_nil {space : List Char} (blank : Blank space) : trimStart space = [] := by
  have all := trimStart_blank blank []
  rwa [List.append_nil] at all

theorem trimEnd_blank {space : List Char} (blank : Blank space) (text : List Char) :
    trimEnd (text ++ space) = trimEnd text := by
  rw [trimEnd, List.reverse_append]
  exact congrArg List.reverse (trimStart_blank blank.reverse text.reverse)

/-- What follows a text that is not blank stays when the text is trimmed. -/
theorem trimStart_append {text : List Char} (visible : trimStart text ≠ []) (rest : List Char) :
    trimStart (text ++ rest) = trimStart text ++ rest := by
  rw [trimStart, List.dropWhile_append, ← trimStart, if_neg (by simpa using visible)]

/-- White space around a text is taken away with what the text has of it. -/
theorem trim_blank {left right : List Char} (opening : Blank left) (closing : Blank right)
    (text : List Char) : trim (left ++ (text ++ right)) = trim text := by
  rw [trim, trim, trimStart_blank opening]
  by_cases visible : trimStart text = []
  · have blank : trimStart (text ++ right) = [] := by
      rw [trimStart, List.dropWhile_append, ← trimStart, visible]
      exact trimStart_eq_nil closing
    rw [visible, blank]
  · rw [trimStart_append visible, trimEnd_blank closing]

theorem trim_eq_nil {space : List Char} (blank : Blank space) : trim space = [] := by
  rw [trim, trimStart_eq_nil blank]
  rfl

/-! ## Braces -/

/-- Reading code that closes `opened` groups more than it opens, and never more
than these, leaves the groups around them as they are. -/
theorem extent_opened {code : List Char} (inner opened : Nat) (rest : List Char)
    (total : opened + code.count '\x7b' = code.count '\x7d')
    (never : ∀ n, (code.take n).count '\x7d' ≤ opened + (code.take n).count '\x7b') :
    extent readGroup (inner + opened) (code ++ rest) =
      (extent readGroup inner rest).map (· + code.length) := by
  induction code generalizing opened with
  | nil =>
    simp only [List.count_nil, Nat.add_zero] at total
    simp [total]
  | cons c code ih =>
    have following (n : Nat) := never (n + 1)
    simp only [List.take_succ_cons, List.count_cons] at following
    simp only [List.count_cons] at total
    have later (opened : Nat) (total : opened + code.count '\x7b' = code.count '\x7d')
        (never : ∀ n, (code.take n).count '\x7d' ≤ opened + (code.take n).count '\x7b') :
        (extent readGroup (inner + opened) (code ++ rest)).map (· + 1) =
          (extent readGroup inner rest).map (· + (c :: code).length) := by
      rw [ih opened total never, Option.map_map]
      congr 1
    rw [List.cons_append, extent_cons]
    by_cases left : c = '\x7b'
    · subst left
      simp only [readGroup, if_true]
      exact later (opened + 1) (by simp at total; omega)
        (fun n => by have := following n; simp at this; omega)
    · by_cases right : c = '\x7d'
      · subst right
        -- The brace is in the code, so one of the groups is open.
        have first := following 0
        obtain ⟨less, rfl⟩ : ∃ less, opened = less + 1 := ⟨opened - 1, by simp at first; omega⟩
        simp only [readGroup, left, if_false, if_true, ← Nat.add_assoc]
        exact later less (by simp at total; omega)
          (fun n => by have := following n; simp at this; omega)
      · simp only [readGroup, left, right, if_false]
        exact later opened (by simpa [left, right] using total)
          (fun n => by have := following n; simpa [left, right] using this)

/-- Reading code whose braces pair up leaves the groups that are open as they
are. -/
theorem extent_balanced {code : List Char} (balanced : Balanced code) (inner : Nat)
    (rest : List Char) :
    extent readGroup inner (code ++ rest) = (extent readGroup inner rest).map (· + code.length) := by
  obtain ⟨total, never⟩ := balanced
  exact extent_opened inner 0 rest (by omega) (by simpa using never)

theorem Balanced.of_blank {space : List Char} (blank : Blank space) : Balanced space := by
  have none (c : Char) (visible : isSpace c = false) (text : List Char) (blank : Blank text) :
      text.count c = 0 := List.count_eq_zero.2 (blank.not_mem visible)
  constructor
  · rw [none _ (by decide) _ blank, none _ (by decide) _ blank]
  · intro n
    have part : Blank (space.take n) := fun c mem => blank c (List.mem_of_mem_take mem)
    rw [none _ (by decide) _ part]
    exact Nat.zero_le _

/-! ## Extents -/

/-- What follows a text does not matter to a reader that ends inside it. -/
theorem extent_append {σ : Type} {read : σ → Char → Option σ} {state : σ} {text : List Char}
    {n : Nat} (h : extent read state text = some n) (rest : List Char) :
    extent read state (text ++ rest) = some n := by
  induction text generalizing state n with
  | nil => simp at h
  | cons c text ih =>
    rw [extent_cons] at h
    rw [List.cons_append, extent_cons]
    cases taken : read state c with
    | none => simpa [taken] using h
    | some next =>
      simp only [taken] at h
      obtain ⟨m, inner, rfl⟩ := Option.map_eq_some_iff.1 h
      simp only [ih inner, Option.map_some]

/-- A reader past a character ends where the character first stands. -/
theorem extent_readPast {target : Char} {text : List Char} (absent : target ∉ text)
    (before : Option Char) (rest : List Char) :
    extent (readPast target none) before (text ++ target :: rest) = some (text.length + 1) := by
  induction text generalizing before with
  | nil =>
    rw [List.nil_append, extent_cons]
    simp [readPast]
  | cons c text ih =>
    obtain ⟨other, later⟩ : target ≠ c ∧ target ∉ text := by simpa using absent
    rw [List.cons_append, extent_cons, readPast, if_neg (fun h => other h.1.symm)]
    simp only [ih later, Option.map_some, List.length_cons]

end Text

/-! ## Code in braces -/

/-- Code whose braces pair up, with white space around it, is read as a whole. -/
theorem Group.read_braced {cur : Cursor} {left code right rest : List Char}
    (opening : Text.Blank left) (balanced : Text.Balanced code) (closing : Text.Blank right)
    (h : cur.rest = Layout.braced left code right ++ rest) :
    Group.read cur = ⟨left ++ (code ++ right), true, cur.position,
      cur.advance (Layout.braced left code right).length⟩ := by
  have body : cur.next.rest = (left ++ (code ++ right)) ++ '\x7d' :: rest := by
    rw [Cursor.next, Cursor.rest_advance, h]
    simp [Layout.braced]
  have reach : Text.extent Text.readGroup 0 cur.next.rest =
      some ((left ++ (code ++ right)).length + 1) := by
    rw [body, List.append_assoc, List.append_assoc,
      Text.extent_balanced (.of_blank opening), Text.extent_balanced balanced,
      Text.extent_balanced (.of_blank closing), Text.extent_cons]
    simp [Text.readGroup]
    omega
  have after : cur.next.advance ((left ++ (code ++ right)).length + 1) =
      cur.advance (Layout.braced left code right).length := by
    rw [Cursor.next, Cursor.advance_advance]
    congr 1
    simp [Layout.braced]
    omega
  simp only [Group.read, Cursor.read, reach, after]
  rw [body, Nat.add_sub_cancel, List.take_left]

theorem Group.trimmed_blank {left code right : List Char} (opening : Text.Blank left)
    (closing : Text.Blank right) (closed : Bool) (start : Position) (cursor : Cursor) :
    Group.trimmed ⟨left ++ (code ++ right), closed, start, cursor⟩ =
      String.ofList (Text.trim code) := by
  rw [Group.trimmed, Text.trim_blank opening closing]

/-! ## Comments in code -/

theorem isCommentOnly_eq (code : List Char) :
    isCommentOnly code =
      match afterComment? (Text.trimStart code) with
      | some rest => isCommentOnly rest
      | none => (Text.trimStart code).isEmpty := by
  rw [isCommentOnly]
  split
  · next rest found => rw [found]
  · next found => rw [found]

/-- A comment that ends before the text does ends there whatever follows. -/
theorem afterComment?_append {text rest : List Char} (h : afterComment? text = some rest)
    (more : rest ≠ []) (right : List Char) :
    afterComment? (text ++ right) = some (rest ++ right) := by
  have past {σ : Type} {read : σ → Char → Option σ} {state : σ} {body : List Char}
      (h : Text.dropPast read state body = rest) :
      Text.dropPast read state (body ++ right) = rest ++ right := by
    unfold Text.dropPast at h ⊢
    split at h
    · next n found =>
      rw [Text.extent_append found]
      dsimp only
      rw [List.drop_append_of_le_length (Text.extent_bounds found).2, h]
    · exact absurd h.symm more
  unfold afterComment? at h
  split at h
  · next body => exact congrArg some (past (Option.some.inj h))
  · next body => exact congrArg some (past (Option.some.inj h))
  · contradiction

/-- White space begins no comment. -/
theorem afterComment?_blank {text right : List Char} (h : afterComment? text = none)
    (visible : text ≠ []) (blank : Text.Blank right) : afterComment? (text ++ right) = none := by
  obtain ⟨c, text, rfl⟩ := List.exists_cons_of_ne_nil visible
  cases text with
  | nil =>
    cases right with
    | nil => exact h
    | cons d right =>
      have space : isSpace d = true := blank d List.mem_cons_self
      unfold afterComment?
      split
      · next body same =>
        obtain ⟨-, rfl⟩ : c = '/' ∧ d = '/' := by simp_all
        contradiction
      · next body same =>
        obtain ⟨-, rfl⟩ : c = '/' ∧ d = '*' := by simp_all
        contradiction
      · rfl
  | cons d text =>
    unfold afterComment? at h ⊢
    split at h
    · contradiction
    · contradiction
    · next slashes stars =>
      split
      · next body same => simp_all
      · next body same => simp_all
      · rfl

/-- White space around code does not hide that there is more than comments. -/
theorem isCommentOnly_blank {left right code : List Char} (opening : Text.Blank left)
    (closing : Text.Blank right) (h : isCommentOnly code = false) :
    isCommentOnly (left ++ (code ++ right)) = false := by
  rw [isCommentOnly_eq, Text.trimStart_blank opening, ← isCommentOnly_eq]
  fun_induction isCommentOnly code with
  | case1 code rest found ih =>
    have visible : Text.trimStart code ≠ [] := by
      intro empty
      rw [empty] at found
      contradiction
    have more : rest ≠ [] := by
      rintro rfl
      rw [isCommentOnly_eq] at h
      contradiction
    rw [isCommentOnly_eq, Text.trimStart_append visible, afterComment?_append found more]
    exact ih h
  | case2 code found =>
    have visible : Text.trimStart code ≠ [] := by simpa using h
    rw [isCommentOnly_eq, Text.trimStart_append visible, afterComment?_blank found visible closing]
    simpa using fun empty => absurd empty visible

/-! ## Lines -/

namespace Text

theorem splitFrom_of_not_mem {separator : Char} {text : List Char} (absent : separator ∉ text)
    (part : List Char) : splitFrom separator part text = [part.reverse ++ text] := by
  induction text generalizing part with
  | nil => rw [splitFrom, List.append_nil]
  | cons c text ih =>
    obtain ⟨other, later⟩ : separator ≠ c ∧ separator ∉ text := by simpa using absent
    rw [splitFrom, if_neg (Ne.symm other), ih later, List.reverse_cons, List.append_assoc,
      List.singleton_append]

theorem splitFrom_append (separator : Char) (part a b : List Char) :
    splitFrom separator part (a ++ separator :: b) =
      splitFrom separator part a ++ splitFrom separator [] b := by
  induction a generalizing part with
  | nil => simp [splitFrom]
  | cons c a ih =>
    rw [List.cons_append, splitFrom, splitFrom]
    split
    · rw [ih, List.cons_append]
    · exact ih _

theorem splitFrom_ne_nil (separator : Char) (part text : List Char) :
    splitFrom separator part text ≠ [] := by
  induction text generalizing part with
  | nil => exact List.cons_ne_nil _ _
  | cons c text ih =>
    rw [splitFrom]
    split
    · exact List.cons_ne_nil _ _
    · exact ih _

/-- The first part goes on where it was begun. -/
theorem exists_splitFrom (separator : Char) (part text : List Char) :
    ∃ first others, splitFrom separator part text = (part.reverse ++ first) :: others := by
  induction text generalizing part with
  | nil => exact ⟨[], [], by simp [splitFrom]⟩
  | cons c text ih =>
    rw [splitFrom]
    split
    · exact ⟨[], _, by rw [List.append_nil]⟩
    · obtain ⟨first, others, same⟩ := ih (c :: part)
      exact ⟨c :: first, others, by simp [same]⟩

/-- The parts of a text hold no separator. -/
theorem not_mem_splitFrom {separator : Char} {part : List Char} (before : separator ∉ part)
    (text : List Char) : ∀ line ∈ splitFrom separator part text, separator ∉ line := by
  induction text generalizing part with
  | nil => exact List.forall_mem_singleton.2 (by simpa using before)
  | cons c text ih =>
    rw [splitFrom]
    split
    · exact List.forall_mem_cons.2 ⟨by simpa using before, ih List.not_mem_nil⟩
    · next other => exact ih (List.not_mem_cons_of_ne_of_not_mem (Ne.symm other) before)

theorem blank_splitFrom {separator : Char} {part text : List Char} (before : Blank part)
    (blank : Blank text) : ∀ line ∈ splitFrom separator part text, Blank line := by
  induction text generalizing part with
  | nil =>
    intro line mem
    obtain rfl := List.mem_singleton.1 mem
    exact before.reverse
  | cons c text ih =>
    obtain ⟨space, rest⟩ := List.forall_mem_cons.1 blank
    rw [splitFrom]
    split
    · exact List.forall_mem_cons.2 ⟨before.reverse, ih blank_nil rest⟩
    · exact ih (List.forall_mem_cons.2 ⟨space, before⟩) rest

end Text

namespace Literal

open Text (Blank)

theorem lines_append (a b : List Char) : lines (a ++ '\n' :: b) = lines a ++ lines b :=
  Text.splitFrom_append '\n' [] a b

theorem lines_of_not_mem {text : List Char} (absent : '\n' ∉ text) : lines text = [text] :=
  Text.splitFrom_of_not_mem absent []

theorem lines_ne_nil (text : List Char) : lines text ≠ [] := Text.splitFrom_ne_nil '\n' [] text

theorem blank_lines {text : List Char} (blank : Blank text) : ∀ line ∈ lines text, Blank line :=
  Text.blank_splitFrom Text.blank_nil blank

/-- The lines of a text that are shown. -/
def shown (first : List Char) (rest : List (List Char)) : List (List Char) :=
  (Text.trimEnd first :: trimFollowing rest).filter (!·.isEmpty)

theorem normalize_of_lines {raw first : List Char} {rest : List (List Char)}
    (h : lines raw = first :: rest) (many : rest ≠ []) :
    normalize raw =
      match shown first rest with
      | [] => none
      | kept => some ([' '].intercalate kept) := by
  obtain ⟨second, rest, rfl⟩ := List.exists_cons_of_ne_nil many
  rw [normalize, h]
  rfl

/-- Blank lines are not shown. -/
theorem filter_trimFollowing_blank {space : List (List Char)} (blank : ∀ line ∈ space, Blank line) :
    (trimFollowing space).filter (!·.isEmpty) = [] := by
  fun_induction trimFollowing space with
  | case1 => rfl
  | case2 last =>
    rw [Text.trimStart_eq_nil (blank last List.mem_cons_self)]
    rfl
  | case3 line rest more ih =>
    obtain ⟨head, tail⟩ := List.forall_mem_cons.1 blank
    rw [Text.trim_eq_nil head]
    exact ih tail

theorem filter_trimFollowing_append {space rest : List (List Char)}
    (blank : ∀ line ∈ space, Blank line) (more : rest ≠ []) :
    (trimFollowing (space ++ rest)).filter (!·.isEmpty) =
      (trimFollowing rest).filter (!·.isEmpty) := by
  induction space with
  | nil => rfl
  | cons line space ih =>
    obtain ⟨head, tail⟩ := List.forall_mem_cons.1 blank
    obtain ⟨next, following, same⟩ : ∃ next following, space ++ rest = next :: following :=
      List.exists_cons_of_ne_nil (by simp [more])
    rw [List.cons_append, same, trimFollowing, ← same, Text.trim_eq_nil head]
    · exact ih tail
    · simp

/-- Lines that are blank but for one show that one. -/
theorem normalize_eq_some {raw first text : List Char} {rest : List (List Char)}
    (h : lines raw = first :: rest) (many : rest ≠ []) (kept : shown first rest = [text]) :
    normalize raw = some text := by
  rw [normalize_of_lines h many, kept]
  simp [List.intercalate]

/-- Layout alone is not shown. -/
theorem normalize_layout {space : List Char} (blank : Blank space) (feed : '\n' ∈ space) :
    normalize space = none := by
  obtain ⟨a, b, rfl⟩ := List.append_of_mem feed
  have each := blank_lines blank
  obtain ⟨first, rest, same⟩ := List.exists_cons_of_ne_nil (lines_ne_nil a)
  have split : lines (a ++ '\n' :: b) = first :: (rest ++ lines b) := by
    rw [lines_append, same, List.cons_append]
  rw [split] at each
  obtain ⟨head, tail⟩ := List.forall_mem_cons.1 each
  have none : shown first (rest ++ lines b) = [] := by
    have start : Text.trimEnd first = [] := by
      have all := Text.trimEnd_blank head []
      rwa [List.nil_append] at all
    rw [shown, start]
    exact filter_trimFollowing_blank tail
  rw [normalize_of_lines split (by simp [lines_ne_nil]), none]

theorem shown_first {first text : List Char} {rest : List (List Char)}
    (kept : Text.trimEnd first = text) (visible : text ≠ []) (blank : ∀ line ∈ rest, Blank line) :
    shown first rest = [text] := by
  rw [shown, kept, List.filter_cons_of_pos (by simpa using visible),
    filter_trimFollowing_blank blank]

theorem shown_following {first text line : List Char} {before after : List (List Char)}
    (start : Blank first) (above : ∀ line ∈ before, Blank line)
    (kept : (trimFollowing (line :: after)).filter (!·.isEmpty) = [text]) :
    shown first (before ++ line :: after) = [text] := by
  have none : Text.trimEnd first = [] := Text.trimEnd_blank start []
  rw [shown, none, List.filter_cons_of_neg (by simp),
    filter_trimFollowing_append above (List.cons_ne_nil _ _), kept]

/-- Layout from its first line feed on. -/
theorem exists_first_feed {space : List Char} (blank : Blank space) (feed : '\n' ∈ space) :
    ∃ a b, space = a ++ '\n' :: b ∧ '\n' ∉ a ∧ Blank a ∧ Blank b := by
  obtain ⟨a, b, rfl, first⟩ := List.eq_append_cons_of_mem feed
  obtain ⟨before, after⟩ := List.forall_mem_append.1 blank
  exact ⟨a, b, rfl, first, before, (List.forall_mem_cons.1 after).2⟩

/-- Layout up to its last line feed. -/
theorem exists_last_feed {space : List Char} (blank : Blank space) (feed : '\n' ∈ space) :
    ∃ a b, space = a ++ '\n' :: b ∧ '\n' ∉ b ∧ Blank a ∧ Blank b := by
  obtain ⟨a, b, same, first, before, after⟩ :=
    exists_first_feed blank.reverse (List.mem_reverse.2 feed)
  refine ⟨b.reverse, a.reverse, ?_, by simpa using first, after.reverse, before.reverse⟩
  rw [← List.reverse_reverse space, same]
  simp

/-- Literal text on the first line. -/
theorem normalize_above {text after : List Char} (blank : Blank after) (feed : '\n' ∈ after)
    (visible : text ≠ []) (noFeed : '\n' ∉ text) (stop : Text.trimEnd text = text) :
    normalize (text ++ after) = some text := by
  obtain ⟨c, d, rfl, first, ending, below⟩ := exists_first_feed blank feed
  have split : lines (text ++ (c ++ '\n' :: d)) = (text ++ c) :: lines d := by
    rw [← List.append_assoc, lines_append, lines_of_not_mem (by simp [noFeed, first]),
      List.singleton_append]
  have kept : Text.trimEnd (text ++ c) = text := by rw [Text.trimEnd_blank ending, stop]
  exact normalize_eq_some split (lines_ne_nil d) (shown_first kept visible (blank_lines below))

/-- Blank lines above the ones that are shown. -/
theorem normalize_below {above below line text : List Char} {rest : List (List Char)}
    (blank : Blank above) (split : lines below = line :: rest)
    (kept : (trimFollowing (line :: rest)).filter (!·.isEmpty) = [text]) :
    normalize (above ++ '\n' :: below) = some text := by
  have each := blank_lines blank
  obtain ⟨first, more, same⟩ := List.exists_cons_of_ne_nil (lines_ne_nil above)
  rw [same] at each
  obtain ⟨head, tail⟩ := List.forall_mem_cons.1 each
  have whole : lines (above ++ '\n' :: below) = first :: (more ++ line :: rest) := by
    rw [lines_append, same, split, List.cons_append]
  exact normalize_eq_some whole (by simp) (shown_following head tail kept)

/-- Literal text on the last line. -/
theorem normalize_last {before text : List Char} (blank : Blank before) (feed : '\n' ∈ before)
    (visible : text ≠ []) (noFeed : '\n' ∉ text) (start : Text.trimStart text = text) :
    normalize (before ++ text) = some text := by
  obtain ⟨a, b, rfl, last, above, indent⟩ := exists_last_feed blank feed
  have split : lines (b ++ text) = [b ++ text] := lines_of_not_mem (by simp [noFeed, last])
  have kept : (trimFollowing [b ++ text]).filter (!·.isEmpty) = [text] := by
    rw [trimFollowing, Text.trimStart_blank indent, start,
      List.filter_cons_of_pos (by simpa using visible), List.filter_nil]
  have whole := normalize_below above split kept
  rwa [List.append_assoc, List.cons_append]

/-- Literal text on a line between others. -/
theorem normalize_between {before text after : List Char} (blankBefore : Blank before)
    (feedBefore : '\n' ∈ before) (blankAfter : Blank after) (feedAfter : '\n' ∈ after)
    (visible : text ≠ []) (noFeed : '\n' ∉ text) (start : Text.trimStart text = text)
    (stop : Text.trimEnd text = text) : normalize (before ++ (text ++ after)) = some text := by
  obtain ⟨a, b, rfl, last, above, indent⟩ := exists_last_feed blankBefore feedBefore
  obtain ⟨c, d, rfl, first, ending, below⟩ := exists_first_feed blankAfter feedAfter
  have split : lines (b ++ (text ++ (c ++ '\n' :: d))) = (b ++ (text ++ c)) :: lines d := by
    rw [← List.append_assoc, ← List.append_assoc, lines_append,
      lines_of_not_mem (by simp [noFeed, first, last]), List.singleton_append, List.append_assoc]
  have trimmed : Text.trim (b ++ (text ++ c)) = text := by
    rw [Text.trim_blank indent ending, Text.trim, start, stop]
  obtain ⟨next, more, same⟩ := List.exists_cons_of_ne_nil (lines_ne_nil d)
  have kept : (trimFollowing ((b ++ (text ++ c)) :: lines d)).filter (!·.isEmpty) = [text] := by
    rw [same, trimFollowing, ← same, trimmed, List.filter_cons_of_pos (by simpa using visible),
      filter_trimFollowing_blank (blank_lines below)]
    simp
  have whole := normalize_below above split kept
  rwa [List.append_assoc, List.cons_append]

/-- **Literal text is shown as it is**, without the layout around it. -/
theorem normalize_literal {before text after : List Char} (left : Text.Layout before)
    (right : Text.Layout after) (visible : text ≠ []) (noFeed : '\n' ∉ text)
    (start : before ≠ [] → Text.trimStart text = text)
    (stop : after ≠ [] → Text.trimEnd text = text) :
    normalize (before ++ (text ++ after)) = some text := by
  obtain rfl | ⟨blankBefore, feedBefore⟩ := left
  · obtain rfl | ⟨blankAfter, feedAfter⟩ := right
    · rw [List.nil_append, List.append_nil, normalize, lines_of_not_mem noFeed]
    · exact normalize_above blankAfter feedAfter visible noFeed
        (stop (List.ne_nil_of_mem feedAfter))
  · have start := start (List.ne_nil_of_mem feedBefore)
    obtain rfl | ⟨blankAfter, feedAfter⟩ := right
    · rw [List.append_nil]
      exact normalize_last blankBefore feedBefore visible noFeed start
    · exact normalize_between blankBefore feedBefore blankAfter feedAfter visible noFeed start
        (stop (List.ne_nil_of_mem feedAfter))

end Literal

end InlineMarkup
