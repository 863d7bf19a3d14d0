import InlineMarkup.Proofs.Soundness

/-!
# InlineMarkup.Proofs.Lines

White space in literal text, told line by line.  `Literal.normalize` cuts a text at its line
feeds and takes the white space around the cuts away.  Here it is compared with two other
accounts of the same:

* by place: the first line is trimmed at its end, the last one at its start, the others at both
  ends, and what is left of them is joined with spaces;
* by a single pass (`collapse`) over the lines as they are broken, which adds each to the text
  before it.  It never sees the empty line after a line feed that ends the text, takes the line
  before it for the last one, and mends that afterwards.

`lines_eq_splitOn` ties the lines to those of the library, `foldl_gather` the pass to a join, and
`collapse_eq` puts them together.
-/

namespace InlineMarkup.Literal

open Text (Blank trim trimStart trimEnd splitFrom)
open Unicode (isSpace)

/-! ## Lines by their place -/

theorem modifyHead_same (parts : List (List Char)) : parts.modifyHead (fun part => part) = parts := by
  cases parts <;> rfl

theorem splitFrom_eq_splitOn (separator : Char) (part text : List Char) :
    splitFrom separator part text = (text.splitOn separator).modifyHead (part.reverse ++ ·) := by
  induction text generalizing part with
  | nil => simp [splitFrom]
  | cons c text ih =>
    rw [List.splitOn_eq_splitOnP] at ih ⊢
    rw [splitFrom, List.splitOnP_cons_eq_if_modifyHead]
    by_cases same : c = separator
    · simp [same, ih, modifyHead_same]
    · simp [same, ih, Function.comp_def]

theorem lines_eq_splitOn (text : List Char) : lines text = text.splitOn '\n' := by
  simp [lines, Text.splitAt, splitFrom_eq_splitOn, modifyHead_same]

theorem trimFollowing_append (middle : List (List Char)) (last : List Char) :
    trimFollowing (middle ++ [last]) = middle.map trim ++ [trimStart last] := by
  induction middle with
  | nil => rfl
  | cons line middle ih =>
    rw [List.cons_append, trimFollowing, ih]
    · simp
    · simp

/-- A text with a line feed in it, cut at the last one. -/
theorem exists_last_line {raw : List Char} (feed : '\n' ∈ raw) :
    ∃ before last first middle, raw = before ++ '\n' :: last ∧ '\n' ∉ last ∧
      lines before = first :: middle ∧ lines raw = first :: (middle ++ [last]) := by
  obtain ⟨last, before, same, absent⟩ := List.eq_append_cons_of_mem (List.mem_reverse.2 feed)
  obtain ⟨first, middle, cut⟩ := List.exists_cons_of_ne_nil (lines_ne_nil before.reverse)
  have whole : raw = before.reverse ++ '\n' :: last.reverse := by
    simpa using congrArg List.reverse same
  have absent : '\n' ∉ last.reverse := by simpa using absent
  refine ⟨_, _, first, middle, whole, absent, cut, ?_⟩
  rw [whole, lines_append, cut, lines_of_not_mem absent, List.cons_append]

theorem normalize_of_not_mem {raw : List Char} (absent : '\n' ∉ raw) : normalize raw = some raw := by
  rw [normalize, lines_of_not_mem absent]

/-- A text, unless it is empty. -/
def unlessEmpty (text : List Char) : Option (List Char) := if text = [] then none else some text

/-- Lines that are left when the empty ones are dropped, with a space between them. -/
def joined (lines : List (List Char)) : List Char :=
  [' '].intercalate (lines.filter (!·.isEmpty))

theorem joined_eq_nil {lines : List (List Char)} :
    joined lines = [] ↔ lines.filter (!·.isEmpty) = [] := by
  constructor
  · intro empty
    have visible : ∀ line ∈ lines.filter (!·.isEmpty), line ≠ [] := by simp
    cases kept : lines.filter (!·.isEmpty) with
    | nil => rfl
    | cons line rest =>
      have nonempty := visible line (by simp [kept])
      rw [joined, kept] at empty
      cases rest with
      | nil => simp [nonempty] at empty
      | cons second rest => simp [nonempty] at empty
  · intro none
    rw [joined, none]
    rfl

theorem normalize_eq_joined {raw first last : List Char} {middle : List (List Char)}
    (cut : lines raw = first :: (middle ++ [last])) :
    normalize raw = unlessEmpty (joined (trimEnd first :: (middle.map trim ++ [trimStart last]))) := by
  rw [normalize_of_lines cut (by simp), shown, trimFollowing_append, unlessEmpty]
  by_cases empty : joined (trimEnd first :: (middle.map trim ++ [trimStart last])) = []
  · rw [if_pos empty, joined_eq_nil.1 empty]
  · rw [if_neg empty]
    rw [joined_eq_nil] at empty
    split
    · contradiction
    · rfl

/-! ## Line breaks -/

/-- A text without the carriage returns before its line feeds. -/
def withoutReturns (text : List Char) : List Char :=
  text.foldr (fun c rest => if c = '\r' ∧ rest.head? = some '\n' then rest else c :: rest) []

theorem trim_append_blank {space : List Char} (blank : Blank space) (text : List Char) :
    trim (text ++ space) = trim text :=
  Text.trim_blank Text.blank_nil blank text

theorem trimFollowing_blank {space : List Char} (blank : Blank space) (line : List Char)
    (before : List (List Char)) {after : List (List Char)} (more : after ≠ []) :
    trimFollowing (before ++ (line ++ space) :: after) = trimFollowing (before ++ line :: after) := by
  induction before with
  | nil => cases after <;> simp_all [trimFollowing, trim_append_blank]
  | cons first before ih =>
    rw [List.cons_append, List.cons_append, trimFollowing, trimFollowing, ih]
    · simp
    · simp

/-- White space before a line feed makes no difference. -/
theorem normalize_blank_feed {space : List Char} (blank : Blank space) (absent : '\n' ∉ space)
    (before after : List Char) :
    normalize (before ++ (space ++ '\n' :: after)) = normalize (before ++ '\n' :: after) := by
  rw [← List.append_assoc]
  by_cases feed : '\n' ∈ before
  · obtain ⟨above, last, first, middle, rfl, plain, cut, -⟩ := exists_last_line feed
    have whole (space : List Char) (absent : '\n' ∉ space) :
        lines (above ++ '\n' :: last ++ space ++ '\n' :: after) =
          first :: (middle ++ (last ++ space) :: lines after) := by
      rw [lines_append, List.append_assoc, List.cons_append, lines_append, cut,
        lines_of_not_mem (by simp [plain, absent])]
      simp
    have bare := whole [] (by simp)
    rw [List.append_nil] at bare
    rw [normalize_of_lines (whole space absent) (by simp), normalize_of_lines bare (by simp), shown,
      shown, trimFollowing_blank blank last middle (lines_ne_nil after), List.append_nil]
  · have whole (space : List Char) (absent : '\n' ∉ space) :
        lines (before ++ space ++ '\n' :: after) = (before ++ space) :: lines after := by
      rw [lines_append, lines_of_not_mem (by simp [feed, absent]), List.singleton_append]
    have bare := whole [] (by simp)
    rw [List.append_nil] at bare
    rw [normalize_of_lines (whole space absent) (lines_ne_nil after),
      normalize_of_lines bare (lines_ne_nil after), shown, shown, Text.trimEnd_blank blank]

theorem normalize_withoutReturns (raw : List Char) :
    normalize (withoutReturns raw) = normalize raw := by
  have along (before rest : List Char) :
      normalize (before ++ withoutReturns rest) = normalize (before ++ rest) := by
    induction rest generalizing before with
    | nil => rfl
    | cons c rest ih =>
      have later := ih (before ++ [c])
      simp only [withoutReturns, List.foldr_cons] at later ⊢
      split
      · next dropped =>
        obtain ⟨rfl, feed⟩ := dropped
        obtain ⟨after, same⟩ := List.head?_eq_some_iff.1 feed
        have one : normalize (before ++ (['\r'] ++ '\n' :: after)) =
            normalize (before ++ '\n' :: after) :=
          normalize_blank_feed (by decide) (by decide) before after
        rw [same] at later ⊢
        simpa using one.symm.trans (by simpa using later)
      · simpa using later
  exact along [] raw

/-! ## A single pass -/

/-- The lines of a text as they are broken, of which `line`, nearest first, was read.  The last
one need not be broken, but is not empty then; a carriage return belongs to the break. -/
def breakLines (line : List Char) : List Char → List (List Char)
  | [] => if line.isEmpty then [] else [line.reverse]
  | c :: rest =>
    if c = '\n' then unreturned line.reverse :: breakLines [] rest else breakLines (c :: line) rest
where
  /-- A line without the carriage return of its break. -/
  unreturned (line : List Char) : List Char :=
    if line.getLast? = some '\r' then line.dropLast else line

/-- One of `count` lines, trimmed by its number. -/
def trimLine (count number : Nat) (line : List Char) : List Char :=
  if number = 0 then trimEnd line else if number + 1 = count then trimStart line else trim line

/-- Adds a line to the text before it. -/
def gather (text line : List Char) : List Char :=
  if line.isEmpty then text else if text.isEmpty then line else text ++ ' ' :: line

/-- Literal text as it is shown, in a single pass over its lines. -/
def collapse (raw : List Char) : Option (List Char) :=
  if '\n' ∈ raw then
    let lines := breakLines [] raw
    let text := (lines.mapIdx (trimLine lines.length)).foldl gather []
    unlessEmpty (if raw.getLast? = some '\n' then trimEnd text else text)
  else some raw

open breakLines (unreturned)

theorem exists_unreturned (line : List Char) :
    ∃ space, Blank space ∧ line = unreturned line ++ space := by
  by_cases last : line.getLast? = some '\r'
  · obtain ⟨line, rfl⟩ := List.getLast?_eq_some_iff.1 last
    exact ⟨['\r'], by decide, by simp [unreturned]⟩
  · exact ⟨[], Text.blank_nil, by simp [unreturned, last]⟩

@[simp] theorem trimEnd_unreturned (line : List Char) : trimEnd (unreturned line) = trimEnd line := by
  obtain ⟨space, blank, same⟩ := exists_unreturned line
  rw [← Text.trimEnd_blank blank (unreturned line), ← same]

@[simp] theorem trim_unreturned (line : List Char) : trim (unreturned line) = trim line := by
  obtain ⟨space, blank, same⟩ := exists_unreturned line
  rw [← trim_append_blank blank (unreturned line), ← same]

theorem breakLines_append (line before after : List Char) :
    breakLines line (before ++ '\n' :: after) =
      (splitFrom '\n' line before).map unreturned ++ breakLines [] after := by
  induction before generalizing line with
  | nil => simp [breakLines, splitFrom]
  | cons c before ih => by_cases feed : c = '\n' <;> simp [breakLines, splitFrom, feed, ih]

theorem breakLines_of_not_mem {text : List Char} (absent : '\n' ∉ text) {line : List Char}
    (visible : line.reverse ++ text ≠ []) : breakLines line text = [line.reverse ++ text] := by
  induction text generalizing line with
  | nil => simpa [breakLines] using visible
  | cons c text ih =>
    obtain ⟨other, later⟩ : '\n' ≠ c ∧ '\n' ∉ text := by simpa using absent
    rw [breakLines, if_neg (Ne.symm other), ih later (by simp)]
    simp

theorem mapIdx_trimLine (first last : List Char) (middle : List (List Char)) :
    (first :: (middle ++ [last])).mapIdx (trimLine (first :: (middle ++ [last])).length) =
      trimEnd first :: (middle.map trim ++ [trimStart last]) := by
  have between : middle.mapIdx (fun i => trimLine (middle.length + 1 + 1) (i + 1)) =
      middle.map trim := by
    refine List.ext_getElem (by simp) fun i inside _ => ?_
    have inside : i < middle.length := by simpa using inside
    have other : i ≠ middle.length := by omega
    simp [trimLine, other]
  simp [List.mapIdx_cons, List.mapIdx_append, between]
  simp [trimLine]

@[simp] theorem map_trim_unreturned (lines : List (List Char)) :
    (lines.map unreturned).map trim = lines.map trim := by
  simp [Function.comp_def]

@[simp] theorem gather_nil_left (line : List Char) : gather [] line = line := by
  by_cases none : line = [] <;> simp [gather, none]

@[simp] theorem gather_nil_right (text : List Char) : gather text [] = text := rfl

theorem foldl_gather (text : List Char) (lines : List (List Char)) :
    lines.foldl gather text = joined (text :: lines) := by
  induction lines generalizing text with
  | nil => by_cases empty : text = [] <;> simp [joined, empty]
  | cons line lines ih =>
    rw [List.foldl_cons, ih, gather]
    by_cases none : line = []
    · by_cases empty : text = [] <;> simp [joined, none, empty]
    · by_cases empty : text = []
      · simp [joined, none, empty]
      · cases kept : lines.filter (!·.isEmpty) <;> simp [joined, none, empty, kept]

theorem joined_eq_foldl (lines : List (List Char)) : joined lines = lines.foldl gather [] := by
  simp [foldl_gather, joined]

theorem trimEnd_append (text : List Char) {rest : List Char} (visible : trimEnd rest ≠ []) :
    trimEnd (text ++ rest) = text ++ trimEnd rest := by
  have start : trimStart rest.reverse ≠ [] := by simpa [trimEnd, trimStart] using visible
  have whole := congrArg List.reverse (Text.trimStart_append start text.reverse)
  simpa [trimEnd, trimStart] using whole

theorem blank_of_trimEnd {text : List Char} (h : trimEnd text = []) : Blank text := by
  have start : trimStart text.reverse = [] := by simpa [trimEnd, trimStart] using h
  simpa using (Text.blank_of_trimStart start).reverse

/-- White space at the end of a text is at the end of its last line. -/
theorem trimEnd_gather {text : List Char} (trimmed : trimEnd text = text) (line : List Char) :
    trimEnd (gather text line) = gather text (trimEnd line) := by
  by_cases none : line = []
  · simpa [gather, none, trimEnd] using trimmed
  · by_cases empty : text = []
    · by_cases blank : trimEnd line = [] <;> simp [gather, none, empty, blank]
    · by_cases blank : trimEnd line = []
      · have space : Blank (' ' :: line) :=
          List.forall_mem_cons.2 ⟨by decide, blank_of_trimEnd blank⟩
        simp [gather, none, empty, blank, Text.trimEnd_blank space, trimmed]
      · have visible : trimEnd (' ' :: line) = ' ' :: trimEnd line := by
          simpa using trimEnd_append [' '] blank
        rw [gather, gather, if_neg (by simpa using none), if_neg (by simpa using empty),
          if_neg (by simpa using blank), if_neg (by simpa using empty),
          trimEnd_append text (by simp [visible]), visible]

theorem trimEnd_trimEnd (text : List Char) : trimEnd (trimEnd text) = trimEnd text := by
  have again (text : List Char) : trimStart (trimStart text) = trimStart text := by
    induction text with
    | nil => rfl
    | cons c text ih => by_cases space : isSpace c = true <;> simp_all [trimStart]
  simpa [trimEnd, trimStart] using again text.reverse

theorem trimEnd_trim (text : List Char) : trimEnd (trim text) = trim text := trimEnd_trimEnd _

theorem trimEnd_foldl_gather {lines : List (List Char)} (trimmed : ∀ line ∈ lines, trimEnd line = line)
    {text : List Char} (start : trimEnd text = text) :
    trimEnd (lines.foldl gather text) = lines.foldl gather text := by
  induction lines generalizing text with
  | nil => exact start
  | cons line lines ih =>
    obtain ⟨first, later⟩ := List.forall_mem_cons.1 trimmed
    exact ih later (by rw [trimEnd_gather start, first])

/-- The pass over a text that does not end with a line feed. -/
theorem foldl_gather_lines (first last : List Char) (middle : List (List Char)) :
    let lines := unreturned first :: (middle.map unreturned ++ [last])
    (lines.mapIdx (trimLine lines.length)).foldl gather [] =
      joined (trimEnd first :: (middle.map trim ++ [trimStart last])) := by
  dsimp only
  rw [mapIdx_trimLine, map_trim_unreturned, trimEnd_unreturned, joined_eq_foldl]

/-- The pass over a text that ends with a line feed.  The line before it was trimmed as the last
one, and what it still has at its end is at the end of the text. -/
theorem trimEnd_foldl_gather_lines (first : List Char) (middle : List (List Char)) :
    let lines := unreturned first :: middle.map unreturned
    trimEnd ((lines.mapIdx (trimLine lines.length)).foldl gather []) =
      joined (trimEnd first :: (middle.map trim ++ [trimStart []])) := by
  rw [joined_eq_foldl]
  obtain rfl | ⟨middle, line, rfl⟩ := List.eq_nil_or_concat middle
  · simp [trimLine, trimEnd_trimEnd, trimStart]
  · have above : ∀ line ∈ trimEnd first :: middle.map trim, trimEnd line = line := by
      simp [trimEnd_trimEnd, trimEnd_trim]
    have start : trimEnd ((trimEnd first :: middle.map trim).foldl gather []) = _ :=
      trimEnd_foldl_gather above rfl
    have last := trimEnd_gather start (trimStart (unreturned line))
    rw [← trim, trim_unreturned] at last
    simp only [List.concat_eq_append, List.map_append, List.map_cons, List.map_nil]
    rw [mapIdx_trimLine, map_trim_unreturned, trimEnd_unreturned]
    simpa [trimStart] using last

/-- The pass comes to the same as the rule. -/
theorem collapse_eq (raw : List Char) : collapse raw = normalize raw := by
  by_cases feed : '\n' ∈ raw
  · obtain ⟨before, last, first, middle, rfl, absent, cut, whole⟩ := exists_last_line feed
    have parts : splitFrom '\n' [] before = first :: middle := cut
    rw [normalize_eq_joined whole, collapse, if_pos feed, breakLines_append, parts, List.map_cons]
    dsimp only
    by_cases ended : last = []
    · subst ended
      have ends : (before ++ ['\n']).getLast? = some '\n' := by simp
      rw [if_pos ends, breakLines]
      exact congrArg unlessEmpty (by simpa using trimEnd_foldl_gather_lines first middle)
    · have other : (before ++ '\n' :: last).getLast? ≠ some '\n' := by
        rw [List.append_cons, List.getLast?_append, List.getLast?_eq_some_getLast ended,
          Option.some_or]
        exact fun ends => absent (Option.some.inj ends ▸ List.getLast_mem ended)
      rw [if_neg other, breakLines_of_not_mem absent (by simpa using ended)]
      exact congrArg unlessEmpty (by simpa using foldl_gather_lines first last middle)
  · rw [collapse, if_neg feed, normalize_of_not_mem feed]

/-- **Literal text follows its lines.**  Text without a line feed is kept.  Any other is cut at
every line feed, and of its lines the first is trimmed at its end, the last at its start and the
others at both ends; the empty ones are dropped and the rest joined with spaces, and if nothing is
left of them, nothing is shown.  A single pass over the lines shows the same, carriage returns
before line feeds make no difference, and what is shown is one line that stays as it is. -/
theorem normalize_by_lines (raw : List Char) :
    ('\n' ∉ raw → normalize raw = some raw) ∧
    ('\n' ∈ raw → ∃ first middle last, raw.splitOn '\n' = first :: (middle ++ [last]) ∧
      normalize raw =
        unlessEmpty (joined (trimEnd first :: (middle.map trim ++ [trimStart last])))) ∧
    normalize raw = collapse raw ∧
    normalize (withoutReturns raw) = normalize raw ∧
    ∀ text, normalize raw = some text → '\n' ∉ text ∧ normalize text = some text := by
  refine ⟨normalize_of_not_mem, fun feed => ?_, (collapse_eq raw).symm,
    normalize_withoutReturns raw, fun text shown => ?_⟩
  · obtain ⟨-, last, first, middle, -, -, -, cut⟩ := exists_last_line feed
    exact ⟨first, middle, last, lines_eq_splitOn raw ▸ cut, normalize_eq_joined cut⟩
  · have plain : '\n' ∉ text := by
      by_cases empty : raw = []
      · subst empty
        cases shown
        exact List.not_mem_nil
      · exact (normalize_sound empty shown).2
    exact ⟨plain, normalize_of_not_mem plain⟩

/-- Text between tags on four lines, with carriage returns, and a blank line among them. -/
theorem normalize_by_lines_blank :
    let raw := " one \r\n\ttwo\r \r\r\n \n three \r".toList
    '\n' ∈ raw ∧ withoutReturns raw = " one \n\ttwo\r \n \n three \r".toList ∧
      normalize raw = some " one two three \r".toList ∧ collapse raw = normalize raw ∧
      normalize " one two three \r".toList = some " one two three \r".toList := by
  have shown : normalize " one \r\n\ttwo\r \r\r\n \n three \r".toList =
      some " one two three \r".toList := by decide +kernel
  obtain ⟨-, -, pass, -, kept⟩ := normalize_by_lines " one \r\n\ttwo\r \r\r\n \n three \r".toList
  exact ⟨by decide +kernel, by decide +kernel, shown, pass.symm, (kept _ shown).2⟩

end InlineMarkup.Literal
