import InlineMarkup.Proofs.Closing
import InlineMarkup.Proofs.Endings

/-!
# InlineMarkup.Proofs.Quoting

String literals that are written end where they should.  A literal is written character by
character (`Text.escape`), which comes to four replacements in the whole text, one after the other
(`Text.flatMap_escape`).  Two readers are tried on it, with any text after it:

* `Text.literal?`, which gives back what the literal stands for and knows no other escapes than
  the four, nor a line break between the quotes;
* the one that looks for markup in code.  It passes over the literal as a whole
  (`Text.read_quoted`), and since it only finds markup in plain code (`Host.isCode_of_seekFrom`),
  it finds none inside the literal (`Host.seek_outside_literal`).
-/

namespace InlineMarkup

open Text

namespace Text

/-! ## Escapes -/

/-- A text with every `target` in it written another way. -/
def replaced (target : Char) (written text : List Char) : List Char :=
  text.flatMap fun c => if c = target then written else [c]

/-- The replacements do not disturb each other in this order: the backslashes that the others
bring in are not seen by the first. -/
theorem flatMap_escape (text : List Char) :
    text.flatMap escape =
      replaced '\r' ['\\', 'r'] (replaced '\n' ['\\', 'n']
        (replaced '\'' ['\\', '\''] (replaced '\\' ['\\', '\\'] text))) := by
  induction text with
  | nil => rfl
  | cons c text ih =>
    simp only [replaced, List.flatMap_cons, List.flatMap_append] at ih ⊢
    rw [ih, escape]
    by_cases backslash : c = '\\'
    · simp [backslash]
    by_cases quote : c = '\''
    · simp [quote]
    by_cases feed : c = '\n'
    · simp [feed]
    by_cases back : c = '\r'
    · simp [back]
    · simp [backslash, quote, feed, back]

/-- What a sign behind a backslash stands for. -/
def unescape? (sign : Char) : Option Char :=
  if sign = '\\' ∨ sign = '\'' then some sign
  else if sign = 'n' then some '\n'
  else if sign = 'r' then some '\r'
  else none

/-- A character is written as itself, or by a backslash and a sign that stands for it. -/
theorem escape_cases (c : Char) :
    escape c = [c] ∧ c ≠ '\\' ∧ c ≠ '\'' ∧ c ≠ '\n' ∧ c ≠ '\r' ∨
      ∃ sign, escape c = ['\\', sign] ∧ unescape? sign = some c := by
  by_cases backslash : c = '\\'
  · exact .inr ⟨'\\', by simp [escape, unescape?, backslash]⟩
  by_cases quote : c = '\''
  · exact .inr ⟨'\'', by simp [escape, unescape?, quote]⟩
  by_cases feed : c = '\n'
  · exact .inr ⟨'n', by simp [escape, unescape?, feed]⟩
  by_cases back : c = '\r'
  · exact .inr ⟨'r', by simp [escape, unescape?, back]⟩
  · exact .inl (by simp [escape, backslash, quote, feed, back])

theorem not_mem_quoted {c : Char} (lineBreak : c = '\n' ∨ c = '\r') (text : List Char) :
    c ∉ quoted text := by
  have escaped (d : Char) : c ∉ escape d := by
    obtain ⟨same, -, -, feed, back⟩ | ⟨sign, same, known⟩ := escape_cases d
    · rw [same]
      obtain rfl | rfl := lineBreak <;> simp [Ne.symm feed, Ne.symm back]
    · have other : c ≠ sign := by
        rintro rfl
        obtain rfl | rfl := lineBreak <;> simp [unescape?] at known
      rw [same]
      obtain rfl | rfl := lineBreak <;> simp [other]
  obtain rfl | rfl := lineBreak <;> simp [quoted, escaped]

/-! ## A reader of literals -/

/-- The text that a literal stands for, from behind its first quote, and what comes after it.
Stricter than `readLiteral`: `none` also if it does not end on its line, or has an escape that is
not known. -/
def literalBody? : List Char → Option (List Char × List Char)
  | [] => none
  | '\'' :: rest => some ([], rest)
  | ['\\'] => none
  | '\\' :: sign :: rest => do
    let c ← unescape? sign
    let (text, after) ← literalBody? rest
    return (c :: text, after)
  | c :: rest =>
    if c = '\n' ∨ c = '\r' then none
    else do
      let (text, after) ← literalBody? rest
      return (c :: text, after)

/-- The text that the literal at the start stands for, and what comes after it. -/
def literal? : List Char → Option (List Char × List Char)
  | '\'' :: rest => literalBody? rest
  | _ => none

theorem literalBody?_escape (text rest : List Char) :
    literalBody? (text.flatMap escape ++ '\'' :: rest) = some (text, rest) := by
  induction text with
  | nil => rfl
  | cons c text ih =>
    rw [List.flatMap_cons, List.append_assoc]
    obtain ⟨same, backslash, quote, feed, back⟩ | ⟨sign, same, known⟩ := escape_cases c
    · simp [same, literalBody?, ih, backslash, feed, back]
    · simp [same, literalBody?, ih, known]

/-- The string that begins with the quote of a literal ends with its other one. -/
theorem extent_escape (text rest : List Char) :
    extent (readString '\'') false (text.flatMap escape ++ '\'' :: rest) =
      some ((text.flatMap escape).length + 1) := by
  induction text with
  | nil => rfl
  | cons c text ih =>
    rw [List.flatMap_cons, List.append_assoc]
    obtain ⟨same, backslash, quote, feed, -⟩ | ⟨sign, same, -⟩ := escape_cases c
    · simp [same, extent_cons, readString, backslash, quote, feed, ih]
    · simp [same, extent_cons, readString, ih]

theorem read_quoted {cur : Cursor} {text rest : List Char} (h : cur.rest = quoted text ++ rest) :
    cur.next.read (readString '\'') false =
      ⟨text.flatMap escape, true, cur.advance (quoted text).length⟩ := by
  have behind : cur.next.rest = text.flatMap escape ++ '\'' :: rest :=
    Cursor.rest_next (h.trans (quoted_append text rest))
  simp [Cursor.read, behind, extent_escape, Cursor.next_advance, quoted]

theorem toList_quote (text : String) : (quote text).toList = quoted text.toList := by
  simp [quote]

end Text

namespace Host

/-! ## Literals in code -/

theorem unended_append {ends : List Char → Char → Bool} {first last : List Char} :
    Unended ends (first ++ last) ↔
      Unended ends first ∧ Unended (fun inner => ends (first ++ inner)) last := by
  induction first generalizing ends with
  | nil => simp [unended_nil]
  | cons c first ih => simp [unended_cons, ih, and_assoc]

/-- No character of what is written for a text ends the literal: a quote and a backslash have a
backslash to themselves. -/
theorem unended_escape (before : List Char) (free : escaped before = false) (text : List Char) :
    Unended (fun inner => stringEnds '\'' (before ++ inner)) (text.flatMap escape) ∧
      escaped (before ++ text.flatMap escape) = false := by
  induction text generalizing before with
  | nil => simpa [unended_nil] using free
  | cons c text ih =>
    rw [List.flatMap_cons]
    obtain ⟨same, backslash, quote, feed, -⟩ | ⟨sign, same, -⟩ := Text.escape_cases c
    · have first : stringEnds '\'' before c = false := by simp [stringEnds, quote, feed]
      have later := ih (before ++ [c]) (by simp [escaped_append, backslash])
      rw [same]
      simpa [unended_append, unended_cons, unended_nil, first] using later
    · have guarded : escaped (before ++ ['\\']) = true := by simp [escaped_append, free]
      have first : stringEnds '\'' before '\\' = false := by simp [stringEnds]
      have second : stringEnds '\'' (before ++ ['\\']) sign = false := by simp [stringEnds, guarded]
      have later := ih (before ++ ['\\'] ++ [sign]) (by rw [escaped_append, guarded]; simp)
      rw [same]
      simpa [unended_append, unended_cons, unended_nil, first, second] using later

/-- What is found after a text that leads to plain code is in plain code, if it is so from there
on. -/
theorem isCode_past {context : Context} {cur found : Cursor} {text rest : List Char}
    (whole : cur.rest = text ++ rest) (fresh : rest ≠ [] → (Place.code.walk text).Fresh rest)
    (later : seekFrom context (cur.advance text.length) = some found)
    (inside : (Place.code.walk ((cur.advance text.length).between found)).isCode = true) :
    (Place.code.walk (cur.between found)).isCode = true := by
  obtain ⟨reached, c, more, begins, -⟩ := seekFrom_sound later
  have left : (cur.advance text.length).between found ++ found.rest = rest := by
    rw [reached.between_append_rest, Cursor.rest_of_append whole]
  have fresh := fresh (by simp [← left, begins])
  rw [← left] at fresh
  rw [← (Cursor.Reaches.advance text.length cur).between_append reached, Cursor.between_advance,
    whole, List.take_left, Place.walk_append, fresh.isCode_walk, inside]

/-- Markup is only found in plain code. -/
theorem isCode_of_seekFrom {context : Context} {cur found : Cursor}
    (h : seekFrom context cur = some found) :
    (Place.code.walk (cur.between found)).isCode = true := by
  induction size : cur.rest.length using Nat.strongRecOn generalizing context cur with
  | ind n ih =>
    cases begins : cur.rest with
    | nil => simp [seekFrom_nil context begins] at h
    | cons c more =>
      have past {text rest : List Char} {context : Context} (nonempty : text ≠ [])
          (whole : cur.rest = text ++ rest)
          (fresh : rest ≠ [] → (Place.code.walk text).Fresh rest)
          (later : seekFrom context (cur.advance text.length) = some found) :
          (Place.code.walk (cur.between found)).isCode = true := by
        have shorter : (cur.advance text.length).rest.length < n := by
          have := List.length_pos_iff.2 nonempty
          simp [← size, whole]
          omega
        exact isCode_past whole fresh later (ih _ shorter later rfl)
      obtain ⟨token, rest, leads, nonempty, whole⟩ := Token.exists_leads c more
      rw [← begins] at whole
      cases token with
      | string quote body =>
        exact past nonempty whole.symm leads.fresh
          ((seekFrom_string leads.1 leads.2 whole.symm).symm.trans h)
      | lineComment body =>
        exact past nonempty whole.symm leads.fresh
          ((seekFrom_lineComment leads whole.symm).symm.trans h)
      | blockComment body =>
        exact past nonempty whole.symm leads.fresh
          ((seekFrom_blockComment leads whole.symm).symm.trans h)
      | space run =>
        exact past nonempty whole.symm leads.fresh
          ((seekFrom_blank leads.all whole.symm).symm.trans h)
      | word run =>
        -- The cursor may stand in the middle of a word, so it is passed character by character.
        obtain ⟨d, run, rfl⟩ := List.exists_cons_of_ne_nil leads.nonempty
        have part := leads.all d List.mem_cons_self
        have plain : Place.code.walk [d] = .code := walk_of_plain (by simpa using plain_of_isPart part)
        have first : cur.rest = [d] ++ (run ++ rest) := whole.symm
        have fresh : (Place.code.walk [d]).Fresh (run ++ rest) := by
          rw [plain]
          exact ⟨rfl, fun slash => by contradiction⟩
        exact past (by simp) first (fun _ => fresh) ((seekFrom_part part first).symm.trans h)
      | mark d =>
        have first : cur.rest = d :: rest := whole.symm
        by_cases opens : d = '<' ∧ rest.head?.any Name.isStart = true ∧ context.allowsMarkup = true
        · obtain ⟨rfl, named, allowed⟩ := opens
          rw [seekFrom_cons context first, if_neg (by decide), if_neg (by simp), if_neg (by simp),
            if_pos ⟨rfl, named, allowed⟩] at h
          obtain rfl := Option.some.inj h
          rw [Cursor.between_self]
          rfl
        · have passed := seekFrom_mark leads first fun less named => by
            simpa [less, named] using opens
          exact past nonempty first leads.fresh (passed.symm.trans h)

/-- Inside a literal there is no plain code. -/
theorem isCode_in_literal {place : Place} (code : place.isCode = true) (text : List Char) (n : Nat) :
    (place.walk ('\'' :: (text.flatMap escape).take n)).isCode = false := by
  have opened : place.step '\'' = .quoted ⟨'\'', rfl⟩ := by
    cases place with
    | code | slash => rfl
    | quoted | guarded | line | block | star => contradiction
  have inside := (unended_escape [] rfl text).1
  rw [← List.take_append_drop n (text.flatMap escape), unended_append] at inside
  have string := Place.inside_string ⟨'\'', rfl⟩
  have stays := string.walk_unended inside.1
  rw [Place.walk_cons, opened]
  exact stays ▸ string.apart _

/-- No markup is found inside a literal that begins in plain code. -/
theorem seek_outside_literal {text before rest : List Char} {cur found : Cursor}
    (whole : cur.rest = before ++ (quoted text ++ rest)) (closed : Closed before)
    (h : seek cur = some found) :
    (∃ n < before.length, found = cur.advance n) ∨
      (cur.advance (before ++ quoted text).length).Reaches found := by
  obtain ⟨⟨n, rfl⟩, c, more, begins, -⟩ := seek_sound h
  by_cases early : n < before.length
  · exact .inl ⟨n, early, rfl⟩
  by_cases late : (before ++ quoted text).length ≤ n
  · refine .inr ⟨n - (before ++ quoted text).length, ?_⟩
    rw [Cursor.advance_advance]
    congr 1
    omega
  -- Otherwise the place is in the literal: at its first quote, where no tag begins, or behind it.
  exfalso
  obtain ⟨k, rfl⟩ : ∃ k, n = before.length + k := ⟨n - before.length, by omega⟩
  rw [List.length_append] at late
  have literal := quoted_append text rest
  cases k with
  | zero => simp [whole, literal] at begins
  | succ k =>
    have code := isCode_of_seekFrom h
    have size : (quoted text).length = (text.flatMap escape).length + 2 := by simp [quoted]
    rw [Cursor.between_advance, whole, literal, List.take_length_add_append, List.take_succ_cons,
      List.take_append_of_le_length (by omega), Place.walk_append,
      isCode_in_literal (closed_iff.1 closed)] at code
    contradiction

end Host

/-- **A string literal says what it stands for, and where it ends.**  It is the text with four
replacements made in it, one after the other, between quotes.  Whatever follows it, reading it
gives the text back and stops right behind it; it has no line break in it; the reader of strings
in code stops right behind it, too; and where it begins in plain code, no markup is found in it. -/
theorem quote_exact (text : String) (rest : List Char) :
    (quote text).toList = '\'' :: replaced '\r' ['\\', 'r'] (replaced '\n' ['\\', 'n']
        (replaced '\'' ['\\', '\''] (replaced '\\' ['\\', '\\'] text.toList))) ++ ['\''] ∧
    literal? ((quote text).toList ++ rest) = some (text.toList, rest) ∧
    '\n' ∉ (quote text).toList ∧ '\r' ∉ (quote text).toList ∧
    (∀ cur : Cursor, cur.rest = (quote text).toList ++ rest →
      (cur.next.read (readString '\'') false).ended = true ∧
      (cur.next.read (readString '\'') false).cursor = cur.advance (quote text).toList.length ∧
      (cur.next.read (readString '\'') false).cursor.rest = rest) ∧
    ∀ (cur : Cursor) (before : List Char),
      cur.rest = before ++ ((quote text).toList ++ rest) → Host.Closed before →
      ∀ found, Host.seek cur = some found →
        (∃ n < before.length, found = cur.advance n) ∨
          (cur.advance (before ++ (quote text).toList).length).Reaches found := by
  rw [toList_quote]
  refine ⟨?_, ?_, not_mem_quoted (.inl rfl) _, not_mem_quoted (.inr rfl) _, fun cur h => ?_,
    fun cur before whole closed found => Host.seek_outside_literal whole closed⟩
  · rw [quoted, flatMap_escape]
  · rw [quoted_append]
    exact literalBody?_escape text.toList rest
  · rw [read_quoted h]
    exact ⟨rfl, rfl, Cursor.rest_of_append h⟩

/-- A literal with a tag, a quote, a backslash and a line break in it, before a tag in code. -/
theorem quote_exact_lookalike :
    let code := "f('<b>\\'\\\\\\n', <i>".toList
    (quote "<b>'\\\n").toList = "'<b>\\'\\\\\\n'".toList ∧
      literal? "'<b>\\'\\\\\\n', <i>".toList = some ("<b>'\\\n".toList, ", <i>".toList) ∧
      Host.Closed "f(".toList ∧
      ∃ found, Host.seek (.ofList code) = some found ∧
        ((∃ n < 2, found = (Cursor.ofList code).advance n) ∨
          ((Cursor.ofList code).advance 13).Reaches found) := by
  have written : (quote "<b>'\\\n").toList = "'<b>\\'\\\\\\n'".toList := by decide +kernel
  obtain ⟨-, read, -, -, -, outside⟩ := quote_exact "<b>'\\\n" ", <i>".toList
  rw [written] at read outside
  have closed : Host.Closed "f(".toList := by decide +kernel
  obtain ⟨found, place⟩ : ∃ found, Host.seek (.ofList "f('<b>\\'\\\\\\n', <i>".toList) = some found :=
    Option.isSome_iff_exists.1 (by decide +kernel)
  exact ⟨written, read, closed, found, place, outside _ "f(".toList rfl closed found place⟩

end InlineMarkup
