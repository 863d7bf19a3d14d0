import InlineMarkup.Proofs.Tokens

/-!
# InlineMarkup.Proofs.Seeking

Where markup is found, told by tokens.  `seek` keeps hardly anything of the code that it has
passed: a character and a word.  That is enough:

* `Opens` says of a place between tokens that markup may start there;
* `Fits` is the invariant that ties the context of `seek` to the tokens it has passed, and
  `seekFrom_token` keeps it over a token;
* so `seek` finds the first `<` that opens markup (`seek_finds_first_opening`).
-/

namespace InlineMarkup.Host

open Name (isPart isStart)
open Unicode (isSpace)

/-! ## Where markup may start -/

namespace Token

/-- Whether the token counts for what may follow it: white space and comments do not. -/
def isSignificant : Token → Bool
  | lineComment _ | blockComment _ | space _ => false
  | string _ _ | word _ | mark _ => true

/-- Whether markup may follow the token. -/
def admitsMarkup : Token → Bool
  | word run => expressionKeywords.contains (String.ofList run)
  | mark c => c != ')' && c != ']' && c != '/'
  | string _ _ | lineComment _ | blockComment _ | space _ => false

end Token

/-- The nearest token that counts, looking back from the end of some. -/
def nearest? (before : List Token) : Option Token := (before.filter Token.isSignificant).getLast?

/-- Markup starts with a `<` between these tokens: an identifier follows directly, and the
nearest token before it, if there is one, may be followed by markup. -/
structure Opens (before after : List Token) : Prop where
  named : (textOf after).head?.any isStart = true
  admitted : (nearest? before).all Token.admitsMarkup = true

theorem nearest?_append_singleton (before : List Token) (token : Token) :
    nearest? (before ++ [token]) = if token.isSignificant then some token else nearest? before := by
  unfold nearest?
  rw [List.filter_append]
  cases significant : token.isSignificant with
  | true => simp [significant]
  | false => simp [significant]

/-! ## Reading a token -/

/-- A reader whose state is told by what it has read, and which stops where that ends. -/
structure Tells {σ : Type} (reader : σ → Char → Option σ) (first : σ) (state : List Char → σ)
    (ends : List Char → Char → Bool) : Prop where
  start : state [] = first
  step (before : List Char) (c : Char) :
    reader (state before) c = if ends before c then none else some (state (before ++ [c]))

/-- Such a reader reads a text through the first character that ends it. -/
theorem Tells.cursor_read {σ : Type} {reader : σ → Char → Option σ} {first : σ}
    {state : List Char → σ} {ends : List Char → Char → Bool} (tells : Tells reader first state ends)
    {body rest : List Char} (through : Through ends body rest) {cur : Cursor}
    (h : cur.rest = body ++ rest) : (cur.read reader first).cursor = cur.advance body.length := by
  have reach : ∀ (body : List Char) (before : List Char),
      Through (fun inner => ends (before ++ inner)) body rest →
      Text.extent reader (state before) (body ++ rest) = some body.length ∨
        Text.extent reader (state before) (body ++ rest) = none ∧ rest = [] := by
    intro body
    induction body with
    | nil =>
      intro before through
      obtain rfl := through_nil.1 through
      exact .inr ⟨rfl, rfl⟩
    | cons c body ih =>
      intro before through
      rw [through_cons, List.append_nil] at through
      rw [List.cons_append, Text.extent_cons, tells.step before c]
      split at through
      · next ended =>
        subst through
        rw [if_pos ended]
        exact .inl rfl
      · next going =>
        rw [if_neg going]
        have shifted : Through (fun inner => ends ((before ++ [c]) ++ inner)) body rest := by
          simpa using through
        obtain found | ⟨missing, ended⟩ := ih (before ++ [c]) shifted
        · exact .inl (by simp [found])
        · exact .inr ⟨by simp [missing], ended⟩
  obtain found | ⟨missing, rfl⟩ := reach body [] through
  · rw [Cursor.read, h, ← tells.start, found]
  · rw [Cursor.read, h, ← tells.start, missing, Cursor.toEnd, h, List.append_nil]

theorem escaped_append (before : List Char) (c : Char) :
    escaped (before ++ [c]) = (c == '\\' && !escaped before) := by
  simp only [escaped, List.reverse_append, List.reverse_singleton, List.singleton_append,
    List.takeWhile_cons]
  split
  · next slash =>
    simp only [List.length_cons, slash, Bool.true_and]
    obtain even | odd := Nat.mod_two_eq_zero_or_one
      (before.reverse.takeWhile (· == '\\')).length
    · rw [Nat.add_mod, even]; rfl
    · rw [Nat.add_mod, odd]; rfl
  · next other => simp [Bool.eq_false_iff.2 other]

theorem tells_readString {quote : Char} (quoted : isQuote quote = true) :
    Tells (Text.readString quote) false escaped (stringEnds quote) := by
  refine ⟨rfl, fun before c => ?_⟩
  have slash : quote ≠ '\\' := by
    rintro rfl
    contradiction
  rw [escaped_append, stringEnds, Text.readString]
  cases escaped before with
  | true => simp
  | false =>
    by_cases backslash : c = '\\'
    · subst backslash
      simp [slash.symm]
    · simp [backslash, beq_eq_false_iff_ne.2 backslash]

theorem tells_readPast_line : Tells (Text.readPast '\n' none) none List.getLast? lineEnds :=
  ⟨rfl, fun before c => by simp [Text.readPast, lineEnds]⟩

theorem tells_readPast_block :
    Tells (Text.readPast '/' (some '*')) none List.getLast? blockEnds :=
  ⟨rfl, fun before c => by simp [Text.readPast, blockEnds]⟩

section

variable {context : Context} {cur : Cursor} {c quote : Char} {run body rest : List Char}

theorem not_quote (unquoted : isQuote c = false) : ¬ (c = '\'' ∨ c = '"' ∨ c = '\x60') := by
  rw [← isQuote_iff, unquoted]
  exact Bool.false_ne_true

theorem Context.allowsMarkup_quote (quoted : isQuote quote = true) (word : String) :
    allowsMarkup ⟨some quote, word⟩ = false := by
  have other := not_isPart_of_isQuote quoted
  obtain rfl | rfl | rfl := isQuote_iff.1 quoted
  · simp [allowsMarkup, other]
  · simp [allowsMarkup, other]
  · simp [allowsMarkup, other]

theorem Context.allowsMarkup_word (part : isPart c = true) (word : String) :
    allowsMarkup ⟨some c, word⟩ = expressionKeywords.contains word := by
  simp [allowsMarkup, part]

theorem Context.allowsMarkup_mark (unquoted : isQuote c = false) (other : isPart c = false)
    (word : String) :
    allowsMarkup ⟨some c, word⟩ = (c != ')' && c != ']' && c != '/') := by
  have quotes := not_quote unquoted
  simp only [not_or] at quotes
  simp [allowsMarkup, other, bne_iff_ne.2 quotes.1, bne_iff_ne.2 quotes.2.1,
    bne_iff_ne.2 quotes.2.2]

theorem seekFrom_string (quoted : isQuote quote = true)
    (through : Through (stringEnds quote) body rest) (h : cur.rest = quote :: (body ++ rest)) :
    seekFrom context cur =
      seekFrom { context with last := some quote } (cur.advance (body.length + 1)) := by
  rw [seekFrom_cons context h, if_pos (isQuote_iff.1 quoted),
    (tells_readString quoted).cursor_read through (Cursor.rest_next h), Cursor.next_advance]

theorem seekFrom_lineComment (through : Through lineEnds body rest)
    (h : cur.rest = '/' :: '/' :: (body ++ rest)) :
    seekFrom context cur = seekFrom context (cur.advance (body.length + 2)) := by
  have line : Through lineEnds ('/' :: body) rest := through_cons.2 through
  rw [seekFrom_cons context h, if_neg (by decide), if_pos ⟨rfl, rfl⟩, Cursor.readPast,
    tells_readPast_line.cursor_read line (Cursor.rest_next h), Cursor.next_advance,
    List.length_cons]

theorem seekFrom_blockComment (through : Through blockEnds body rest)
    (h : cur.rest = '/' :: '*' :: (body ++ rest)) :
    seekFrom context cur = seekFrom context (cur.advance (body.length + 2)) := by
  have inside : (cur.advance 2).rest = body ++ rest := by
    rw [Cursor.rest_advance, h]
    rfl
  rw [seekFrom_cons context h, if_neg (by decide), if_neg (by simp), if_pos ⟨rfl, rfl⟩,
    Cursor.readPast, tells_readPast_block.cursor_read through inside, Cursor.advance_advance,
    Nat.add_comm]

theorem seekFrom_blank (blank : ∀ c ∈ run, isSpace c = true) (h : cur.rest = run ++ rest) :
    seekFrom context cur = seekFrom context (cur.advance run.length) := by
  induction run generalizing cur with
  | nil => rfl
  | cons c run ih =>
    have space := blank c List.mem_cons_self
    obtain ⟨unquoted, slash, less⟩ := plain_of_isSpace space
    rw [seekFrom_cons context h, if_neg (not_quote unquoted), if_neg (by simp [slash]),
      if_neg (by simp [slash]), if_neg (by simp [less]), if_pos space,
      ih (fun d mem => blank d (List.mem_cons_of_mem c mem)) (Cursor.rest_next h),
      Cursor.next_advance, List.length_cons]

/-- A character of a word is pushed onto the context. -/
theorem seekFrom_part (part : isPart c = true) (h : cur.rest = c :: rest) :
    seekFrom context cur = seekFrom (context.push cur.previous? c) cur.next := by
  obtain ⟨unquoted, slash, less⟩ := plain_of_isPart part
  rw [seekFrom_cons context h, if_neg (not_quote unquoted), if_neg (by simp [slash]),
    if_neg (by simp [slash]), if_neg (by simp [less]),
    if_neg (by simp [Name.not_isSpace_of_isPart part])]

/-- The rest of a word that was begun. -/
theorem seekFrom_parts {last : Char} (begun : isPart last = true)
    (previous : cur.previous? = some last) (parts : ∀ c ∈ run, isPart c = true)
    (h : cur.rest = run ++ rest) (word : String) :
    ∃ final, isPart final = true ∧ seekFrom ⟨some last, word⟩ cur =
      seekFrom ⟨some final, word ++ String.ofList run⟩ (cur.advance run.length) := by
  induction run generalizing cur last word with
  | nil => exact ⟨last, begun, by simp⟩
  | cons c run ih =>
    have part := parts c List.mem_cons_self
    have pushed : Context.push ⟨some last, word⟩ cur.previous? c = ⟨some c, word.push c⟩ := by
      simp [Context.push, part, previous, begun]
    obtain ⟨final, ended, same⟩ := ih part (Cursor.previous?_next h)
      (fun d mem => parts d (List.mem_cons_of_mem c mem)) (Cursor.rest_next h) (word.push c)
    refine ⟨final, ended, ?_⟩
    rw [seekFrom_part part h, pushed, same, push_append_ofList, Cursor.next_advance,
      List.length_cons]

/-- A whole word; no other word is to stand right before it. -/
theorem seekFrom_word (word : Maximal isPart run rest) (new : cur.previous?.any isPart = false)
    (h : cur.rest = run ++ rest) :
    ∃ final, isPart final = true ∧
      seekFrom context cur = seekFrom ⟨some final, String.ofList run⟩ (cur.advance run.length) := by
  obtain ⟨c, run, rfl⟩ := List.exists_cons_of_ne_nil word.nonempty
  have part := word.all c List.mem_cons_self
  have pushed : context.push cur.previous? c = ⟨some c, String.push "" c⟩ := by
    simp [Context.push, part, new]
  obtain ⟨final, ended, same⟩ := seekFrom_parts part (Cursor.previous?_next h)
    (fun d mem => word.all d (List.mem_cons_of_mem c mem)) (Cursor.rest_next h) (String.push "" c)
  refine ⟨final, ended, ?_⟩
  rw [seekFrom_part part h, pushed, same, push_append_ofList, String.empty_append,
    Cursor.next_advance, List.length_cons]

theorem seekFrom_mark (mark : Token.Leads (.mark c) rest) (h : cur.rest = c :: rest)
    (shut : c = '<' → rest.head?.any isStart = true → context.allowsMarkup = false) :
    seekFrom context cur = seekFrom (context.push cur.previous? c) cur.next := by
  obtain ⟨unquoted, visible, -, comment⟩ := mark
  have line : ¬ (c = '/' ∧ rest.head? = some '/') := fun h => comment ⟨h.1, .inl h.2⟩
  have block : ¬ (c = '/' ∧ rest.head? = some '*') := fun h => comment ⟨h.1, .inr h.2⟩
  have closed : ¬ (c = '<' ∧ rest.head?.any isStart = true ∧ context.allowsMarkup = true) := by
    rintro ⟨less, named, admitted⟩
    rw [shut less named] at admitted
    contradiction
  rw [seekFrom_cons context h, if_neg (not_quote unquoted), if_neg line, if_neg block,
    if_neg closed, if_neg (by simp [visible])]

end

/-! ## The tokens that were passed -/

/-- What ties the context at a cursor to the tokens before it: they agree on whether markup
may follow, and no word goes on at the cursor. -/
structure Fits (context : Context) (before : List Token) (cur : Cursor) : Prop where
  agrees : context.allowsMarkup = (nearest? before).all Token.admitsMarkup
  apart : cur.previous?.any isPart = true → cur.rest.head?.any isPart = false

section

variable {context : Context} {before : List Token} {cur : Cursor} {rest : List Char}

theorem Fits.start (text : List Char) : Fits .empty [] (.ofList text) :=
  ⟨rfl, fun previous => absurd previous Bool.false_ne_true⟩

/-- A token is passed, unless it is a `<` that opens markup, and the context then fits. -/
theorem seekFrom_token {token : Token} (fits : Fits context before cur) (leads : token.Leads rest)
    (h : cur.rest = token.text ++ rest)
    (shut : token = .mark '<' → rest.head?.any isStart = true → context.allowsMarkup = false) :
    ∃ after : Context, Fits after (before ++ [token]) (cur.advance token.text.length) ∧
      seekFrom context cur = seekFrom after (cur.advance token.text.length) := by
  have apart : (cur.advance token.text.length).previous?.any isPart = true →
      (cur.advance token.text.length).rest.head?.any isPart = false := by
    intro ends
    have last := List.getLast?_eq_some_getLast leads.text_ne_nil
    rw [Cursor.previous?_advance, h, List.take_left, last, Option.some_or, ← last] at ends
    rw [Cursor.rest_of_append h]
    exact leads.apart ends
  -- The tokens that do not count leave the context alone.
  have passed (insignificant : token.isSignificant = false) :
      Fits context (before ++ [token]) (cur.advance token.text.length) := by
    refine ⟨?_, apart⟩
    rw [nearest?_append_singleton, insignificant]
    exact fits.agrees
  cases token with
  | string quote body =>
    refine ⟨_, ⟨?_, apart⟩, seekFrom_string leads.1 leads.2 h⟩
    rw [nearest?_append_singleton, Context.allowsMarkup_quote leads.1]
    rfl
  | lineComment body => exact ⟨context, passed rfl, seekFrom_lineComment leads h⟩
  | blockComment body => exact ⟨context, passed rfl, seekFrom_blockComment leads h⟩
  | space run => exact ⟨context, passed rfl, seekFrom_blank leads.all h⟩
  | word run =>
    have new : cur.previous?.any isPart = false := by
      obtain ⟨c, run, rfl⟩ := List.exists_cons_of_ne_nil leads.nonempty
      rw [Bool.eq_false_iff]
      intro previous
      have other := fits.apart previous
      rw [h] at other
      simp [Token.text, leads.all c List.mem_cons_self] at other
    obtain ⟨final, ended, same⟩ := seekFrom_word leads new h
    refine ⟨⟨some final, String.ofList run⟩, ⟨?_, apart⟩, same⟩
    rw [nearest?_append_singleton, Context.allowsMarkup_word ended]
    rfl
  | mark c =>
    refine ⟨context.push cur.previous? c, ⟨?_, apart⟩,
      seekFrom_mark leads h fun less => shut (congrArg Token.mark less)⟩
    obtain ⟨unquoted, -, other, -⟩ := leads
    rw [nearest?_append_singleton, Context.push, Context.allowsMarkup_mark unquoted other]
    rfl

end

/-- The first place among tokens where markup starts, of which `prior` came before. -/
structure FirstOpening (prior tokens before after : List Token) : Prop where
  here : tokens = before ++ .mark '<' :: after
  opens : Opens (prior ++ before) after
  first (earlier later : List Token) : tokens = earlier ++ .mark '<' :: later →
    Opens (prior ++ earlier) later → before.length ≤ earlier.length

/-- There is such a place further on, if not at the first token. -/
theorem FirstOpening.cons {prior tokens before after : List Token} {token : Token}
    (found : FirstOpening (prior ++ [token]) tokens before after)
    (shut : token = .mark '<' → ¬ Opens prior tokens) :
    FirstOpening prior (token :: tokens) (token :: before) after where
  here := by rw [found.here, List.cons_append]
  opens := by simpa using found.opens
  first earlier later h opens := by
    cases earlier with
    | nil =>
      obtain ⟨rfl, rfl⟩ := List.cons.inj h
      rw [List.append_nil] at opens
      exact absurd opens (shut rfl)
    | cons other earlier =>
      obtain ⟨rfl, same⟩ := List.cons.inj h
      have := found.first earlier later same (by simpa using opens)
      simpa using this

theorem FirstOpening.unique {prior tokens before after before' after' : List Token}
    (found : FirstOpening prior tokens before after)
    (other : FirstOpening prior tokens before' after') : before' = before := by
  have length : before'.length = before.length :=
    Nat.le_antisymm (other.first before after found.here found.opens)
      (found.first before' after' other.here other.opens)
  exact (List.append_inj (other.here.symm.trans found.here) length).1

/-- The whole search, by induction on the tokens: it ends at the first place where markup
starts, and where there is none it finds nothing. -/
theorem seekFrom_tokens {context : Context} {prior tokens : List Token} {cur : Cursor}
    (fits : Fits context prior cur) (proper : Proper tokens) (h : cur.rest = textOf tokens) :
    (∃ before after, FirstOpening prior tokens before after ∧
      seekFrom context cur = some (cur.advance (textOf before).length)) ∨
    (∀ before after, tokens = before ++ .mark '<' :: after → ¬ Opens (prior ++ before) after) ∧
      seekFrom context cur = none := by
  induction tokens generalizing context prior cur with
  | nil => exact .inr ⟨by simp, seekFrom_nil context h⟩
  | cons token tokens ih =>
    obtain ⟨leads, proper⟩ := proper
    by_cases opening : token = .mark '<' ∧ Opens prior tokens
    · obtain ⟨rfl, opens⟩ := opening
      refine .inl ⟨[], tokens, ⟨rfl, by simpa using opens, by simp⟩, ?_⟩
      have admitted := fits.agrees.trans opens.admitted
      rw [seekFrom_cons context h, if_neg (by decide), if_neg (by simp), if_neg (by simp),
        if_pos ⟨rfl, opens.named, admitted⟩]
      rfl
    · have shut : token = .mark '<' → ¬ Opens prior tokens := fun less opens =>
        opening ⟨less, opens⟩
      obtain ⟨next, fits', same⟩ := seekFrom_token fits leads h fun less named => by
        rw [fits.agrees, Bool.eq_false_iff]
        exact fun admitted => shut less ⟨named, admitted⟩
      obtain ⟨before, after, found, place⟩ | ⟨none, missing⟩ :=
        ih fits' proper (Cursor.rest_of_append h)
      · refine .inl ⟨token :: before, after, found.cons shut, ?_⟩
        rw [same, place, Cursor.advance_advance, textOf_cons, List.length_append]
      · refine .inr ⟨fun before after split opens => ?_, same.trans missing⟩
        cases before with
        | nil =>
          obtain ⟨rfl, rfl⟩ := List.cons.inj split
          rw [List.append_nil] at opens
          exact shut rfl opens
        | cons other before =>
          obtain ⟨rfl, inner⟩ := List.cons.inj split
          exact none before after inner (by simpa using opens)

/-- **Markup is found where the tokens of the code say.**  Every text can be cut into tokens
in one way, and `seek` finds the offset of the first `<` among them that an identifier
follows directly and that may follow the nearest token before it, white space and comments
apart; where there is no such `<`, it finds nothing. -/
theorem seek_finds_first_opening (text : List Char) :
    ∃ tokens, Cut text tokens ∧ (∀ others, Cut text others → others = tokens) ∧
      (∀ offset, (seek (.ofList text)).map (·.position.offset) = some offset ↔
        ∃ before after, FirstOpening [] tokens before after ∧
          offset = Text.byteCount (textOf before)) ∧
      (seek (.ofList text) = none ↔
        ∀ before after, tokens = before ++ .mark '<' :: after → ¬ Opens before after) := by
  obtain ⟨tokens, cut⟩ := exists_cut text
  refine ⟨tokens, cut, fun others other => cut.unique other, ?_⟩
  obtain ⟨before, after, found, place⟩ | ⟨none, missing⟩ :=
    seekFrom_tokens (.start text) cut.proper cut.whole.symm
  · have offset : (seek (.ofList text)).map (·.position.offset) =
        some (Text.byteCount (textOf before)) := by
      have read : text.take (textOf before).length = textOf before := by
        rw [← cut.whole, found.here, textOf_append, List.take_left]
      rw [seek, place, Option.map_some, Cursor.offset_advance]
      simp [Cursor.ofList, Position.start, read]
    constructor
    · intro place
      rw [offset, Option.some.injEq]
      constructor
      · rintro rfl
        exact ⟨before, after, found, rfl⟩
      · rintro ⟨before', after', other, rfl⟩
        rw [found.unique other]
    · rw [seek, place]
      refine ⟨fun h => by contradiction, fun none => ?_⟩
      exact absurd found.opens (none before after found.here)
  · rw [seek, missing]
    refine ⟨fun offset => ⟨fun h => by contradiction, ?_⟩, fun _ => none, fun _ => rfl⟩
    rintro ⟨before, after, found, -⟩
    exact absurd found.opens (none before after found.here)

-- A string, comments and a comparison stand before the `<` that is found.
example : (seek (.ofList "f('\\'<b') /* <i> */ < a; return // <u>\n<p>".toList)).map
    (·.position.offset) = some 39 := by
  decide +kernel

end InlineMarkup.Host
