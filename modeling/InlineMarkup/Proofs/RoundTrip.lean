import InlineMarkup.Proofs.Reading

/-!
# InlineMarkup.Proofs.RoundTrip

Reading undoes writing.  A well-formed tree, written in any layout, is read back
as it was, in both modes: `Layout.parse_written`.  By recursive descent a tag is
read as the relation `TagText` builds it, so the proof goes along the derivation
of the text: `element_written` for tags, `content_written` for what is inside.
-/

namespace InlineMarkup

open Outcome (ok_bind)
open Text (Blank)
open Layout (TagText ContentText RunText closingText)
open Unicode (isSpace)

/-- What a tag with content has to be. -/
theorem Node.WellFormed.inside {kind : TagKind} {name : String} {attributes : Attributes}
    {children : List Node} (wellFormed : WellFormed (.tag kind name attributes children false)) :
    TagName name ∧ Name.isVoid name = false ∧ ∀ child ∈ children, child.WellFormed := by
  cases wellFormed with
  | tag named void leaf names distinct values each apart =>
    refine ⟨named, ?_, each⟩
    cases isVoid : Name.isVoid name with
    | false => rfl
    | true => exact absurd (void isVoid) (by simp)

namespace Descent

/-! ## Code without markup -/

section

variable (mode : Mode) (cut : String → Except Error (List Piece))

/-- Values without markup stay as they are. -/
theorem nestAttributes_wellFormed {attributes : Attributes}
    (values : ∀ entry ∈ attributes, entry.2.WellFormed) :
    Fragment.nestAttributes ⟨.plain, mode, cut⟩ attributes = .ok attributes := by
  have each {value : AttrValue} (wellFormed : value.WellFormed) :
      Fragment.nestValue ⟨.plain, mode, cut⟩ value = .ok value := by
    cases value with
    | expression code =>
      rw [Fragment.nestValue, wellFormed.noMarkup]
      rfl
    | string | flag | nested => rfl
  unfold Fragment.nestAttributes
  induction attributes with
  | nil => rfl
  | cons entry attributes ih =>
    obtain ⟨head, tail⟩ := List.forall_mem_cons.1 values
    rw [List.mapM_cons, each head, ok_bind, ok_bind, ih tail]
    rfl

/-- Segments without markup form one text. -/
theorem textAndCode_wellFormed {segments : List Segment} (run : List Segment)
    (wellFormed : ∀ segment ∈ segments, segment.WellFormed) :
    textAndCode cut run segments = .ok (textNodes (run ++ segments)) := by
  induction segments generalizing run with
  | nil => rw [textAndCode, List.append_nil]
  | cons segment segments ih =>
    obtain ⟨head, tail⟩ := List.forall_mem_cons.1 wellFormed
    have later := ih (run ++ [segment]) tail
    rw [List.append_assoc, List.singleton_append] at later
    cases segment with
    | literal text => exact later
    | expression code =>
      rw [textAndCode, head.1.noMarkup]
      exact later

end

theorem wellFormed_of_textNodes {segments : List Segment}
    (wellFormed : ∀ child ∈ textNodes segments, child.WellFormed) :
    ∀ segment ∈ segments, segment.WellFormed := by
  by_cases empty : segments = []
  · rw [empty]
    exact fun segment mem => absurd mem List.not_mem_nil
  · rw [Layout.textNodes_of_ne_nil empty] at wellFormed
    cases wellFormed _ List.mem_cons_self with
    | text nonempty each apart => exact each

/-! ## Where tags begin -/

/-- A written tag begins as markup does. -/
theorem markupStart_written {node : Node} {text : List Char} (written : TagText node text)
    (wellFormed : node.WellFormed) (rest : List Char) : Host.MarkupStart (text ++ rest) := by
  have start {name : String} (named : TagName name) (rest : List Char) :
      Host.MarkupStart ('<' :: (name.toList ++ rest)) := by
    have starts := named.starts
    cases letters : name.toList with
    | nil => rw [letters] at starts; contradiction
    | cons c letters' =>
      rw [letters] at starts
      exact ⟨c, letters' ++ rest, rfl, by simpa using starts⟩
  cases written with
  | leaf =>
    cases wellFormed with
    | tag named =>
      rw [List.cons_append, List.append_assoc]
      exact start named _
  | element =>
    cases wellFormed with
    | tag named =>
      rw [List.cons_append, List.append_assoc]
      exact start named _

theorem tagBegins_of_start {rest : List Char} (start : Host.MarkupStart rest) :
    Content.tagBegins rest = true := by
  obtain ⟨c, more, rfl, named⟩ := start
  simp [Content.tagBegins, named]

theorem not_slash_of_start {cur : Cursor} (start : Host.MarkupStart cur.rest) :
    cur.peekAt? 1 ≠ some '/' := by
  obtain ⟨c, more, begins, named⟩ := start
  rw [Cursor.peekAt?, begins]
  intro same
  obtain rfl : c = '/' := by simpa using same
  revert named
  decide +kernel

/-! ## Tags and their content -/

theorem tagBegins_closingText (before : List Char) (name : String) (after rest : List Char) :
    Content.tagBegins (closingText before name after ++ rest) = true := rfl

section

variable {mode : Mode} {cut : String → Except Error (List Piece)} {cur : Cursor}

/-- A tag up to its content. -/
theorem plain_element_written {kind : TagKind} {name : String} {attributes : Attributes}
    {children : List Node} {selfClosing slash : Bool} {header ending rest : List Char}
    (wellFormed : Node.WellFormed (.tag kind name attributes children selfClosing))
    (written : Layout.AttributesText attributes header) (ends : Layout.EndText slash ending)
    (h : cur.rest = '<' :: (name.toList ++ (header ++ (ending ++ rest)))) (more : cur.rest ≠ []) :
    plain (element mode cut cur more) =
      let inner := cur.advance ('<' :: (name.toList ++ (header ++ ending))).length
      if slash || (!Name.isComponent name && Name.isVoid name) then
        .ok (.tag kind name attributes [] true, inner)
      else plain (content mode cut name inner) >>= fun inside =>
        .ok (.tag kind name attributes inside.1 false, inside.2) := by
  cases wellFormed with
  | tag named void leaf names distinct values each apart =>
    have ahead := Cursor.rest_next h
    rw [plain_element, Header.read_written named names values distinct written ends ahead, ok_bind,
      nestAttributes_wellFormed mode cut values, ok_bind, Cursor.next_advance]
    rfl

/-- The content of a tag up to the first tag in it, or its closing tag. -/
theorem plain_content_written {name : String} {segments : List Segment} {text rest : List Char}
    (run : RunText segments text) (wellFormed : ∀ child ∈ textNodes segments, child.WellFormed)
    (begins : Content.tagBegins rest = true) (h : cur.rest = text ++ rest)
    (more : (cur.advance text.length).rest ≠ []) :
    plain (content mode cut name cur) =
      let stop := cur.advance text.length
      if stop.peekAt? 1 = some '/' then
        let tag := closing stop more
        if mode = .strict ∧ tag.ended = false then
          .error (.unterminatedTag ("/" ++ tag.name) stop.position)
        else if Name.isVoid tag.name then
          plain (content mode cut name tag.after.1) >>= fun inside =>
            .ok (textNodes segments ++ inside.1, inside.2)
        else if mode = .strict ∧ tag.name ≠ name then
          .error (.mismatchedClosingTag name tag.name stop.position)
        else .ok (textNodes segments, tag.after.1)
      else plain (element mode cut stop more) >>= fun child =>
        plain (content mode cut name child.2) >>= fun inside =>
          .ok (textNodes segments ++ child.1 :: inside.1, inside.2) := by
  have each := wellFormed_of_textNodes wellFormed
  rw [plain_content, Content.read_written run each begins h, ok_bind,
    textAndCode_wellFormed cut [] each, ok_bind, dif_neg more]
  rfl

end

mutual

/-- A written tag is read back with everything inside. -/
theorem element_written (mode : Mode) (cut : String → Except Error (List Piece)) {node : Node}
    {text rest : List Char} {cur : Cursor} (more : cur.rest ≠ []) :
    TagText node text → node.WellFormed → cur.rest = text ++ rest →
      plain (element mode cut cur more) = .ok (node, cur.advance text.length)
  | @TagText.leaf kind name attributes slash header ending written ends closed, wellFormed, h => by
    have closes : (slash || (!Name.isComponent name && Name.isVoid name)) = true := by
      obtain rfl | void := closed
      · rfl
      · rw [isComponent_of_isVoid void, void]
        simp
    simp only [List.cons_append, List.append_assoc] at h
    rw [plain_element_written wellFormed written ends h]
    dsimp only
    rw [if_pos closes]
  | @TagText.element kind name attributes children header ending inner before after written ends
      inside left right, wellFormed, h => by
    have ⟨named, notVoid, each⟩ := wellFormed.inside
    have opens : ¬ (false || (!Name.isComponent name && Name.isVoid name)) = true := by
      rw [notVoid]
      simp
    simp only [List.cons_append, List.append_assoc] at h
    have atContent : (cur.advance ('<' :: (name.toList ++ (header ++ ending))).length).rest =
        inner ++ (closingText before name after ++ rest) :=
      Cursor.rest_of_append (by rw [h]; simp)
    rw [plain_element_written wellFormed written ends h]
    dsimp only
    rw [if_neg opens, content_written mode cut named notVoid left right inside each atContent,
      ok_bind, Cursor.advance_advance, ← List.length_append]
    simp only [List.cons_append, List.append_assoc]

/-- Written content is read back, up to the closing tag after it. -/
theorem content_written (mode : Mode) (cut : String → Except Error (List Piece)) {name : String}
    {children : List Node} {text before after rest : List Char} {cur : Cursor}
    (named : TagName name) (notVoid : Name.isVoid name = false) (left : Blank before)
    (right : Blank after) :
    ContentText children text → (∀ child ∈ children, child.WellFormed) →
      cur.rest = text ++ (closingText before name after ++ rest) →
      plain (content mode cut name cur) =
        .ok (children, cur.advance (text ++ closingText before name after).length)
  | .last run, wellFormed, h => by
    have atTag := Cursor.rest_of_append h
    have more : (cur.advance text.length).rest ≠ [] := by rw [atTag]; exact List.cons_ne_nil _ _
    have slash : (cur.advance text.length).peekAt? 1 = some '/' := by
      rw [Cursor.peekAt?, atTag]
      rfl
    obtain ⟨closed, ended, stop⟩ := closing_written named left right atTag more
    rw [plain_content_written run wellFormed (tagBegins_closingText _ _ _ _) h more]
    dsimp only
    rw [if_pos slash, closed, ended, stop, if_neg (by simp), notVoid, if_neg (by simp),
      if_neg (by simp), Cursor.advance_advance, ← List.length_append]
  | @ContentText.tag segments node nodes text tag following run first others, wellFormed, h => by
    obtain ⟨textFormed, tagFormed, othersFormed⟩ :
        (∀ child ∈ textNodes segments, child.WellFormed) ∧ node.WellFormed ∧
          ∀ child ∈ nodes, child.WellFormed := by
      obtain ⟨textFormed, later⟩ := List.forall_mem_append.1 wellFormed
      exact ⟨textFormed, List.forall_mem_cons.1 later⟩
    simp only [List.append_assoc] at h
    have atTag := Cursor.rest_of_append h
    have start : Host.MarkupStart (cur.advance text.length).rest := by
      rw [atTag]
      exact markupStart_written first tagFormed _
    have more := rest_ne_nil_of_start start
    have begins := tagBegins_of_start start
    rw [atTag] at begins
    rw [plain_content_written run textFormed begins h more]
    dsimp only
    rw [if_neg (not_slash_of_start start), element_written mode cut more first tagFormed atTag,
      ok_bind, content_written mode cut named notVoid left right others othersFormed
        (Cursor.rest_of_append atTag), ok_bind, Cursor.advance_advance, Cursor.advance_advance]
    simp only [List.append_assoc, List.length_append, Nat.add_assoc]

end

end Descent

/-! ## Whole texts -/

namespace Layout

/-- A written tag with white space around it, read as a single fragment. -/
theorem parse_tagText {node : Node} {before text after : List Char} (mode : Mode)
    (wellFormed : node.WellFormed) (written : TagText node text) (left : Blank before)
    (right : Blank after) :
    Fragment.parse .plain mode (String.ofList (before ++ (text ++ after))) = .ok node := by
  have start := Descent.markupStart_written written wellFormed after
  have visible : (text ++ after).head?.any isSpace = false := by
    obtain ⟨c, more, begins, -⟩ := start
    rw [begins]
    rfl
  have whole : (Cursor.ofList (before ++ (text ++ after))).rest = before ++ (text ++ after) := rfl
  have skipped := Cursor.skipSpace_blank left visible whole
  have atTag := Cursor.rest_of_append whole
  rw [← skipped] at atTag
  rw [← atTag] at start
  have more := Descent.rest_ne_nil_of_start start
  have begins : Content.tagBegins (Cursor.ofList (before ++ (text ++ after))).skipSpace.rest ∧
      (Cursor.ofList (before ++ (text ++ after))).skipSpace.peekAt? 1 ≠ some '/' :=
    ⟨Descent.tagBegins_of_start start, Descent.not_slash_of_start start⟩
  unfold Fragment.parse
  rw [String.toList_ofList]
  dsimp only
  generalize (Cursor.ofList (before ++ (text ++ after))).skipSpace = cur at *
  have stop := Cursor.rest_of_append atTag
  have ended : (cur.advance text.length).skipSpace.atEnd = true := by
    have all : (cur.advance text.length).rest = after ++ [] := by rw [stop, List.append_nil]
    rw [Cursor.skipSpace_blank right rfl all, Cursor.atEnd, Cursor.rest_of_append all]
    rfl
  have root : Fragment.readRoot (Fragment.reader .plain mode) cur =
      .ok (some node, cur.advance text.length) := by
    rw [Fragment.reader, Descent.readRoot_eq_element mode _ cur more,
      Descent.element_written mode _ more written wellFormed atTag, ok_bind]
  rw [if_pos begins, root, ok_bind]
  dsimp only
  rw [if_neg (by simp [ended])]

/-- **Reading undoes writing**: a well-formed tree can be written, and however it
is laid out, reading the text gives the tree in both modes. -/
theorem parse_written {kind : TagKind} {name : String} {attributes : Attributes}
    {children : List Node} {selfClosing : Bool}
    (wellFormed : Node.WellFormed (.tag kind name attributes children selfClosing)) :
    (∃ text, TagText (.tag kind name attributes children selfClosing) text) ∧
      ∀ text before after mode, TagText (.tag kind name attributes children selfClosing) text →
        Blank before → Blank after →
          Fragment.parse .plain mode (String.ofList (before ++ (text ++ after))) =
            .ok (.tag kind name attributes children selfClosing) := by
  constructor
  · exact exists_tagText wellFormed rfl
  · intro text before after mode written left right
    exact parse_tagText mode wellFormed written left right

/-- A tree with an attribute of each kind, a text that ends in white space next to
an expression, and a void element. -/
def paragraph : Node :=
  .tag .element "p" [("a", .string "it's"), ("b", .expression "f(\x7b\x7d)"), ("c", .flag)]
    [.text [.literal "Hi ", .expression "x"], .tag .element "br" [] [] true] false

theorem wellFormed_paragraph : paragraph.WellFormed := by
  have element : Descent.kindOf "p" = .element ∧ Descent.kindOf "br" = .element := by
    decide +kernel
  have text : Node.WellFormed (.text [.literal "Hi ", .expression "x"]) := by
    refine .text (by simp) ?_ (by simp [Apart, Segment.isLiteral])
    simp only [List.forall_mem_cons]
    exact ⟨by decide +kernel, by decide +kernel, by simp⟩
  have lineBreak : Node.WellFormed (.tag (Descent.kindOf "br") "br" [] [] true) := by
    refine .tag (by decide +kernel) (fun _ => rfl) (fun _ => rfl) ?_ ?_ ?_ ?_ ?_
    all_goals simp [Attributes.names, Apart]
  rw [element.2] at lineBreak
  rw [paragraph, ← element.1]
  refine .tag (by decide +kernel) (by decide +kernel) (by simp) ?_ (by decide +kernel) ?_ ?_
    (by simp [Apart, Node.isText])
  · simp only [List.forall_mem_cons]
    exact ⟨by decide +kernel, by decide +kernel, by decide +kernel, by simp⟩
  · have code : PlainCode "f(\x7b\x7d)" := by decide +kernel
    simp only [List.forall_mem_cons]
    exact ⟨⟨'"', .inl rfl, by decide +kernel⟩, code, trivial, by simp⟩
  · simp only [List.forall_mem_cons]
    exact ⟨text, lineBreak, by simp⟩

/-- The tree laid out over some lines. -/
theorem tagText_paragraph :
    TagText paragraph
      "<p a = \"it's\" b=\x7b f(\x7b\x7d) \x7d\n c>\n  Hi \x7bx \x7d\n<br></ p >".toList := by
  have none : Blank [] := by decide
  have space : Blank [' '] := by decide
  have value : ValueText (.string "it's") _ := .string space space (.inl rfl) (by decide +kernel)
  have code : ValueText (.expression "f(\x7b\x7d)") _ := .expression none none space space
  have indent : Blank ['\n', ' '] := by decide
  have header : AttributesText
      [("a", .string "it's"), ("b", .expression "f(\x7b\x7d)"), ("c", .flag)] _ :=
    .cons space (by simp) value (.cons space (by simp) code (.cons indent (by simp) .flag .nil))
  have gap : GapText (some "Hi ") (['\n', ' ', ' '] ++ ("Hi ".toList ++ [])) :=
    .literal (by decide) (by decide) (by decide +kernel) (by simp)
  have feed : Text.Layout ['\n'] := by decide
  have run : RunText [.literal "Hi ", .expression "x"] _ :=
    .expression gap none space (.last (.none feed))
  have lineBreak : TagText (.tag .element "br" [] [] true) _ :=
    .leaf .nil (.plain none) (.inr (by decide +kernel))
  have inside : ContentText
      [.text [.literal "Hi ", .expression "x"], .tag .element "br" [] [] true] _ :=
    .tag run lineBreak (.last (.last (.none (.inl rfl))))
  have whole : TagText paragraph _ := .element header (.plain none) inside space space
  exact Eq.mp (congrArg (TagText paragraph) (by decide +kernel)) whole

/-- The tree read back from these lines, with white space around them. -/
theorem parse_written_paragraph :
    paragraph.WellFormed ∧
      Fragment.parse .plain .strict
        " <p a = \"it's\" b=\x7b f(\x7b\x7d) \x7d\n c>\n  Hi \x7bx \x7d\n<br></ p >\n" =
          .ok paragraph ∧
      Fragment.parse .plain .lenient
        " <p a = \"it's\" b=\x7b f(\x7b\x7d) \x7d\n c>\n  Hi \x7bx \x7d\n<br></ p >\n" =
          .ok paragraph := by
  have around : String.ofList ([' '] ++
      ("<p a = \"it's\" b=\x7b f(\x7b\x7d) \x7d\n c>\n  Hi \x7bx \x7d\n<br></ p >".toList ++ ['\n'])) =
      " <p a = \"it's\" b=\x7b f(\x7b\x7d) \x7d\n c>\n  Hi \x7bx \x7d\n<br></ p >\n" := by
    decide +kernel
  have undone (mode : Mode) := (parse_written wellFormed_paragraph).2 _ [' '] ['\n'] mode
    tagText_paragraph (by decide) (by decide)
  rw [around] at undone
  exact ⟨wellFormed_paragraph, undone .strict, undone .lenient⟩

end Layout

end InlineMarkup
