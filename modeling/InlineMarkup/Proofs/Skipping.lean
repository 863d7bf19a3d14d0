import InlineMarkup.Proofs.Fork
import InlineMarkup.Proofs.Seeking

/-!
# InlineMarkup.Proofs.Skipping

Comments between tags.  A `Comment` is a text whose ending stands in it only at its end; the
three kinds are skipped by three readers, and each is shown to stop right behind the comment:

* `readFrom_block`: `/* … */`, whose `*` must be read after the opening;
* `readFrom_markup`: `<!-- … -->`, where the last dash of the opening counts;
* `readFrom_declaration`: `<! … >`.

What is read after a comment does not depend on it, since only a `/` is told by what stands
before it (`same_readFrom`).  So content with a comment in it is read as it is without.
-/

namespace InlineMarkup

open Cursor (Fork Shares)
open Host (Through Unended blockEnds)

/-! ## Endings -/

/-- A text without `*/` goes on, also with a `*` after it. -/
theorem Host.unended_star {body : List Char} (absent : ¬ ['*', '/'] <:+: body) :
    Unended blockEnds (body ++ ['*']) := by
  intro before c after whole
  rw [Bool.eq_false_iff]
  intro ends
  obtain ⟨rfl, starred⟩ : c = '/' ∧ before.getLast? = some '*' := by simpa [blockEnds] using ends
  obtain ⟨before, rfl⟩ := List.getLast?_eq_some_iff.1 starred
  obtain rfl | ⟨after, last, rfl⟩ := List.eq_nil_or_concat after
  · simpa using congrArg List.getLast? whole
  · refine absent ⟨before, after, ?_⟩
    rw [List.concat_eq_append, ← List.cons_append, ← List.append_assoc] at whole
    simpa using (List.append_inj_left' whole rfl).symm

theorem Host.through_block {body : List Char} (absent : ¬ ['*', '/'] <:+: body) (rest : List Char) :
    Through blockEnds (body ++ ['*', '/']) rest :=
  .inl ⟨body ++ ['*'], '/', by simp, by simp [blockEnds], unended_star absent⟩

/-- A comment ends at its `-->`.  The dashes read before it count, so there must be no ending
with them, either. -/
theorem Text.extent_markupComment {body : List Char} (dashes : Nat)
    (absent : ¬ ['-', '-', '>'] <:+: List.replicate dashes '-' ++ body) (rest : List Char) :
    extent readMarkupComment dashes (body ++ '-' :: '-' :: '>' :: rest) =
      some (body.length + 3) := by
  induction body generalizing dashes with
  | nil => simp [extent_cons, readMarkupComment]
  | cons c body ih =>
    rw [List.cons_append, extent_cons]
    by_cases dash : c = '-'
    · subst dash
      have read := ih (dashes + 1) (by rwa [List.replicate_succ', List.append_assoc])
      simp [readMarkupComment, read]
    · have few : ¬ (c = '>' ∧ 2 ≤ dashes) := by
        rintro ⟨rfl, many⟩
        obtain ⟨more, rfl⟩ := Nat.exists_eq_add_of_le' many
        exact absent ⟨List.replicate more '-', body, by simp [List.replicate_succ']⟩
      have later : body <:+: List.replicate dashes '-' ++ c :: body :=
        ⟨List.replicate dashes '-' ++ [c], [], by simp⟩
      have read := ih 0 fun inside => absent (inside.trans later)
      simp [readMarkupComment, dash, few, read]

namespace Content

/-- A comment between tags, or a declaration.  It ends where its ending first stands; that of
a markup comment may not begin with the last dash of its opening. -/
inductive Comment : List Char → Prop
  /-- A comment from `/*` to `*/`. -/
  | block {body : List Char} (absent : ¬ ['*', '/'] <:+: body) :
      Comment ('/' :: '*' :: (body ++ ['*', '/']))
  /-- A comment from `<!--` to `-->`. -/
  | markup {body : List Char} (absent : ¬ ['-', '-', '>'] <:+: body)
      (early : ¬ ['-', '>'] <+: body) :
      Comment ('<' :: '!' :: '-' :: '-' :: (body ++ ['-', '-', '>']))
  /-- A declaration from `<!` to `>`, which is not a comment. -/
  | declaration {body : List Char} (absent : '>' ∉ body) (undashed : ¬ ['-', '-'] <+: body) :
      Comment ('<' :: '!' :: (body ++ ['>']))

/-- Two readings of content come to the same: the same segments, with the same text left, or
the same kind of fault. -/
inductive SameReading : (reading reading' : Except Error (List Segment × Cursor)) → Prop
  | read (segments : List Segment) {stop stop' : Cursor} (left : stop.rest = stop'.rest) :
      SameReading (.ok (segments, stop)) (.ok (segments, stop'))
  | fault (place place' : Position) :
      SameReading (.error (.unbalancedBraces place)) (.error (.unbalancedBraces place'))

section

variable {mode : Mode} {pending : List Char} {segments : List Segment} {cur : Cursor}
variable {body rest : List Char}

/-! ## Skipping -/

theorem readFrom_block (absent : ¬ ['*', '/'] <:+: body)
    (h : cur.rest = '/' :: '*' :: (body ++ ['*', '/'] ++ rest)) :
    readFrom mode pending segments cur =
      readFrom mode pending segments (cur.advance (body.length + 4)) := by
  have inside : (cur.advance 2).rest = body ++ ['*', '/'] ++ rest := by simp [h]
  have size : 2 + (body ++ ['*', '/']).length = body.length + 4 := by simp; omega
  have past := Host.tells_readPast_block.cursor_read (Host.through_block absent rest) inside
  rw [readFrom_eq, h]
  simp only [lead, List.head?_cons, if_true, Cursor.readPast]
  rw [past, Cursor.advance_advance, size]

theorem readFrom_markup (absent : ¬ ['-', '-', '>'] <:+: body) (early : ¬ ['-', '>'] <+: body)
    (h : cur.rest = '<' :: '!' :: '-' :: '-' :: (body ++ ['-', '-', '>'] ++ rest)) :
    readFrom mode pending segments cur =
      readFrom mode pending segments (cur.advance (body.length + 7)) := by
  have one : ¬ ['-', '-', '>'] <:+: List.replicate 1 '-' ++ body := by
    simpa [List.infix_cons_iff, absent] using early
  have inside : (cur.advance 4).rest = body ++ '-' :: '-' :: '>' :: rest := by simp [h]
  have past := Text.extent_markupComment 1 one rest
  rw [readFrom_eq, h]
  simp only [lead, List.isPrefixOf, beq_self_eq_true, Bool.and_true, if_true, Cursor.read, inside,
    past, Cursor.advance_advance]
  simp [Nat.add_comm]

theorem readFrom_declaration (absent : '>' ∉ body) (undashed : ¬ ['-', '-'] <+: body)
    (h : cur.rest = '<' :: '!' :: (body ++ ['>'] ++ rest)) :
    readFrom mode pending segments cur =
      readFrom mode pending segments (cur.advance (body.length + 3)) := by
  have begins : ¬ ['!', '-', '-'] <+: '!' :: (body ++ '>' :: rest) := by
    intro ⟨more, dashes⟩
    match body with
    | [] => simp at dashes
    | [c] => simp at dashes
    | c :: d :: body =>
      obtain ⟨rfl, rfl, -⟩ : '-' = c ∧ '-' = d ∧ more = body ++ '>' :: rest := by simpa using dashes
      exact undashed ⟨body, rfl⟩
  have inside : cur.next.rest = '!' :: body ++ '>' :: rest := by simp [Cursor.rest_next h]
  have past := Cursor.readPast_append (by simpa using absent) inside
  rw [← List.isPrefixOf_iff_prefix] at begins
  rw [readFrom_eq, h, List.append_assoc, List.singleton_append]
  simp only [lead, begins, past, List.head?_cons, if_true, Cursor.next_advance]
  simp

/-- **A comment is skipped**, and with it nothing else. -/
theorem readFrom_comment {comment : List Char} (isComment : Comment comment)
    (h : cur.rest = comment ++ rest) :
    readFrom mode pending segments cur =
      readFrom mode pending segments (cur.advance comment.length) := by
  cases isComment with
  | block absent => simpa using readFrom_block absent h
  | markup absent early => simpa using readFrom_markup absent early h
  | declaration absent undashed => simpa using readFrom_declaration absent undashed h

/-! ## Reading on -/

/-- Only a `/` is told by what stands before it. -/
theorem lead_of_head? (other : rest.head? ≠ some '/') (previous previous' : Option Char) :
    lead previous rest = lead previous' rest := by
  cases rest with
  | nil => rfl
  | cons c rest =>
    have slash : c ≠ '/' := by simpa using other
    unfold lead
    split
    · rfl
    · rfl
    · rfl
    · simp_all
    · simp_all

theorem shares_nil {n : Nat} {cur : Cursor} : Shares [] [] n cur := .inl ⟨rfl, rfl⟩

/-- Where the same text is ahead, it makes no difference what was before, once a character is
read. -/
theorem fork_advance {cur cur' : Cursor} (rest : cur.rest = cur'.rest)
    (more : lead cur.previous? cur.rest ≠ .stop) (n : Nat) :
    Fork [] [] (cur.advance (n + 1)) (cur'.advance (n + 1)) := by
  have next : Fork [] [] cur.next cur'.next :=
    Cursor.fork_next ⟨cur.rest, by simp, by simp [rest]⟩ (rest_ne_nil_of_lead more) shares_nil
  have further : Fork [] [] (cur.next.advance n) (cur'.next.advance n) := next.advance shares_nil
  simpa [Cursor.next_advance] using further

theorem fork_group {cur cur' : Cursor} (rest : cur.rest = cur'.rest)
    (opens : lead cur.previous? cur.rest = .group) :
    (Group.read cur').code = (Group.read cur).code ∧
      (Group.read cur').closed = (Group.read cur).closed ∧
      Fork [] [] (Group.read cur).cursor (Group.read cur').cursor :=
  (fork_advance rest (by simp [opens]) 0).read shares_nil

theorem lead_of_fork {cur cur' : Cursor} (fork : Fork [] [] cur cur') :
    lead cur.previous? cur.rest = lead cur'.previous? cur'.rest :=
  (fork.lead_eq shares_nil fun _ => shares_nil).symm

/-- Content is read alike from two places if the same text is ahead, and the same begins with
it. -/
theorem same_readFrom {cur' : Cursor} (rest : cur.rest = cur'.rest)
    (begins : lead cur.previous? cur.rest = lead cur'.previous? cur'.rest) :
    SameReading (readFrom mode pending segments cur) (readFrom mode pending segments cur') := by
  fun_induction readFrom mode pending segments cur generalizing cur' with
  | case1 pending segments cur stops =>
    rw [readFrom_eq, ← begins, stops]
    exact .read _ rest
  | case2 pending segments cur comment ih =>
    rw [readFrom_eq mode pending segments cur', ← begins, comment]
    suffices fork : Fork [] [] _ _ from ih fork.rest_eq (lead_of_fork fork)
    exact ((fork_advance rest (by simp [comment]) 3).read shares_nil).2.2
  | case3 pending segments cur declaration ih =>
    rw [readFrom_eq mode pending segments cur', ← begins, declaration]
    suffices fork : Fork [] [] _ _ from ih fork.rest_eq (lead_of_fork fork)
    exact ((fork_advance rest (by simp [declaration]) 0).readPast shares_nil).2
  | case4 pending segments cur opens =>
    rename_i unclosed
    obtain ⟨-, closed, -⟩ := fork_group rest opens
    rw [readFrom_eq, ← begins, opens]
    dsimp only
    rw [closed, if_pos unclosed]
    exact .fault _ _
  | case5 pending segments cur opens =>
    rename_i whole _ comment ih
    obtain ⟨code, closed, fork⟩ := fork_group rest opens
    rw [readFrom_eq mode pending segments cur', ← begins, opens]
    dsimp only
    rw [closed, code, if_neg whole, if_pos comment]
    exact ih fork.rest_eq (lead_of_fork fork)
  | case6 pending segments cur opens =>
    rename_i whole _ comment ih
    obtain ⟨code, closed, fork⟩ := fork_group rest opens
    have trimmed : (Group.read cur').trimmed = (Group.read cur).trimmed := by
      rw [Group.trimmed, code, Group.trimmed]
    rw [readFrom_eq mode pending segments cur', ← begins, opens]
    dsimp only
    rw [closed, code, trimmed, if_neg whole, if_neg comment]
    exact ih fork.rest_eq (lead_of_fork fork)
  | case7 pending segments cur comment ih =>
    rw [readFrom_eq mode pending segments cur', ← begins, comment]
    suffices fork : Fork [] [] _ _ from ih fork.rest_eq (lead_of_fork fork)
    exact ((fork_advance rest (by simp [comment]) 1).readPast shares_nil).2
  | case8 pending segments cur comment =>
    rename_i ih
    obtain ⟨ended, fork⟩ :
        (cur'.next.readPast '\n' none).ended = (cur.next.readPast '\n' none).ended ∧
        Fork [] [] (cur.next.readPast '\n' none).cursor (cur'.next.readPast '\n' none).cursor :=
      (fork_advance rest (by simp [comment]) 0).readPast shares_nil
    rw [readFrom_eq mode pending segments cur', ← begins, comment]
    dsimp only
    rw [ended]
    exact ih fork.rest_eq (lead_of_fork fork)
  | case9 pending segments cur c character ih =>
    rw [readFrom_eq mode pending segments cur', ← begins, character]
    suffices fork : Fork [] [] _ _ from ih fork.rest_eq (lead_of_fork fork)
    exact fork_advance rest (by simp [character]) 0

/-- **A comment makes no difference.**  After plain text and before anything but a `/`, content is
read in either mode to the same segments as without the comment, with the same text left, or both
readings fail in the same way. -/
theorem read_comment {text comment : List Char} (plain : ∀ c ∈ text, IsPlain c)
    (isComment : Comment comment) (slash : rest.head? ≠ some '/') (mode : Mode) {full bare : Cursor}
    (commented : full.rest = text ++ (comment ++ rest)) (uncommented : bare.rest = text ++ rest) :
    SameReading (read mode full) (read mode bare) := by
  have atComment := Cursor.rest_of_append commented
  have left := Cursor.rest_of_append atComment
  have left' := Cursor.rest_of_append uncommented
  rw [read, readFrom_plain plain [] commented, readFrom_comment isComment atComment,
    read, readFrom_plain plain [] uncommented]
  refine same_readFrom (by rw [left, left']) ?_
  rw [left, left']
  exact lead_of_head? slash _ _

end

/-- A comment of each kind with parts of its ending in it, before code in braces. -/
theorem read_comment_lookalikes :
    Comment "/*/*/".toList ∧ Comment "<!-->->--->".toList ∧ Comment "<!->".toList ∧
      ∀ comment ∈ ["/*/*/", "<!-->->--->", "<!->"],
        SameReading (read .strict (.ofList ("a " ++ comment ++ "\x7bb\x7d</p>").toList))
          (read .strict (.ofList "a \x7bb\x7d</p>".toList)) := by
  have block : Comment "/*/*/".toList := @Comment.block ['/'] (by decide)
  have markup : Comment "<!-->->--->".toList :=
    @Comment.markup ['>', '-', '>', '-'] (by decide) (by decide)
  have declaration : Comment "<!->".toList := @Comment.declaration ['-'] (by decide) (by decide)
  refine ⟨block, markup, declaration, fun comment mem => ?_⟩
  have isComment : Comment comment.toList := by
    simp only [List.mem_cons, List.not_mem_nil, or_false] at mem
    obtain rfl | rfl | rfl := mem
    · exact block
    · exact markup
    · exact declaration
  have plain : ∀ c ∈ ['a', ' '], IsPlain c := by simp [IsPlain]
  have whole : (Cursor.ofList ("a " ++ comment ++ "\x7bb\x7d</p>").toList).rest =
      ['a', ' '] ++ (comment.toList ++ "\x7bb\x7d</p>".toList) := by simp [Cursor.ofList]
  exact read_comment plain isComment (by decide) .strict whole rfl

end Content

end InlineMarkup
