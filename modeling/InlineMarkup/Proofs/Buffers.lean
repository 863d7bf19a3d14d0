import InlineMarkup.Proofs.Segments

/-!
# InlineMarkup.Proofs.Buffers

Headers read with two buffers.  The phases of the machine that reads headers carry what is being
collected, so nothing can be left over from one attribute to the next.  `Header.Buffered` is that
machine with two buffers, for a name and for a value, which all of its stages share: some
transitions fill them, and only a commit clears them.  A commit without a name is passed over.

* `Header.Buffered.Traced` cuts the text that was read: into the attributes that were committed,
  each with a name and a value of its own, what stands between them, and what is pending in the
  buffers.  Every transition keeps it (`traced_step`), and so does a whole run.
* `Header.Buffered.scan_step`: therefore a transition is one of the machine without buffers, which
  passes over no commit, and the two come through the same states to the same result.
-/

namespace InlineMarkup

open Text (Blank)
open Unicode (isSpace)

theorem Text.Blank.concat {space : List Char} (blank : Blank space) {c : Char}
    (last : isSpace c = true) : Blank (space ++ [c]) :=
  List.forall_mem_append.2 ⟨blank, List.forall_mem_singleton.2 last⟩

theorem Attributes.ofList_concat (assignments : List (String × AttrValue)) (name : String)
    (value : AttrValue) :
    ofList (assignments ++ [(name, value)]) = (ofList assignments).insert name value := by
  simp [ofList, List.foldl_append]

/-! ## Views of loops -/

namespace Loop

section

variable {σ τ α : Type} {pass : σ → σ ⊕ α} {pass' : τ → τ ⊕ α} {view : σ → τ} (Holds : σ → Prop)
  (same : ∀ state, Holds state → pass' (view state) = (pass state).map view id)
  (kept : ∀ {state next}, Holds state → pass state = .inl next → Holds next)
include Holds same kept

/-- A loop on views of the states of another one gives the same. -/
theorem run_view (passes : Nat) {state : σ} (holds : Holds state) :
    run pass' passes (view state) = run pass passes state := by
  induction passes generalizing state with
  | zero => rfl
  | succ passes ih =>
    rw [run, run, same state holds]
    cases made : pass state with
    | inl next => exact ih (kept holds made)
    | inr result => rfl

/-- And it comes through the views of the states that the other one comes through. -/
theorem passes_view {first : σ} (holds : Holds first) (last' : τ) :
    Passes pass' (view first) last' ↔ ∃ last, Passes pass first last ∧ view last = last' := by
  have holding {last : σ} (passes : Passes pass first last) : Holds last := by
    induction passes with
    | refl => exact holds
    | tail _ made ih => exact kept ih made
  constructor
  · intro passes
    induction passes with
    | refl => exact ⟨first, .refl, rfl⟩
    | @tail between' next' _ made ih =>
      obtain ⟨between, passes, rfl⟩ := ih
      rw [same between (holding passes)] at made
      cases here : pass between with
      | inl next =>
        rw [here] at made
        exact ⟨next, passes.tail here, Sum.inl.inj made⟩
      | inr result =>
        rw [here] at made
        contradiction
  · rintro ⟨last, passes, rfl⟩
    induction passes with
    | refl => exact .refl
    | @tail between next passes made ih =>
      refine ih.tail ?_
      rw [same between (holding passes), made, Sum.map_inl]

end

end Loop

namespace Header

/-! ## The machine -/

/-- The part of a header that the machine is in, without what it collects there. -/
inductive Stage where
  | tagName
  | beforeName
  | name
  | afterName
  | beforeValue
  | quoted (quote : Char)
  | unquoted
  | slash
  | done
deriving DecidableEq

/-- A header half read, with buffers for what is being collected. -/
structure Buffered where
  /-- Where in the header the cursor stands. -/
  stage : Stage
  /-- The name of the tag, as far as it was read. -/
  tag : String
  /-- The buffer for the name of an attribute. -/
  name : String
  /-- The buffer for the value of an attribute. -/
  value : String
  /-- The attributes read so far. -/
  attributes : Attributes
  /-- All commits so far, also those that were passed over. -/
  commits : List (String × AttrValue)
  /-- Whether the tag was closed by `/>`. -/
  closed : Bool
  /-- Where to read on. -/
  cursor : Cursor

namespace Buffered

/-- A header of which nothing was read. -/
def start (cur : Cursor) : Buffered := ⟨.tagName, "", "", "", [], [], false, cur⟩

/-- Reads the next character and goes on in `stage`. -/
def shift (state : Buffered) (stage : Stage) : Buffered :=
  { state with stage := stage, cursor := state.cursor.next }

/-- Sets the attribute whose name is in the buffer, and clears both buffers.  Without a name
nothing is set. -/
def commit (state : Buffered) (value : AttrValue) : Buffered :=
  { state with
    stage := .beforeName
    name := ""
    value := ""
    attributes :=
      if state.name = "" then state.attributes else state.attributes.insert state.name value
    commits := state.commits ++ [(state.name, value)] }

/-- The phase of a stage, which carries what the buffers hold. -/
def phase (state : Buffered) : Phase :=
  match state.stage with
  | .tagName => .tagName
  | .beforeName => .beforeName
  | .name => .name state.name
  | .afterName => .afterName state.name
  | .beforeValue => .beforeValue state.name
  | .quoted quote => .quoted quote state.name state.value
  | .unquoted => .unquoted state.name state.value
  | .slash => .slash
  | .done => .done

/-- The same header for the machine without buffers. -/
def scan (state : Buffered) : Scan :=
  ⟨state.phase, state.tag, state.attributes, state.closed, state.cursor⟩

/-- One transition of the machine, at the character `c`. -/
def step (mode : Mode) (state : Buffered) (c : Char) : Except Error Buffered :=
  match state.stage with
  | .tagName =>
    if c = '>' then .ok (state.shift .done)
    else if c = '/' then .ok (state.shift .slash)
    else if isSpace c then .ok (state.shift .beforeName)
    else .ok { state.shift .tagName with tag := state.tag.push c }
  | .beforeName =>
    if c = '>' then .ok (state.shift .done)
    else if c = '/' then .ok (state.shift .slash)
    else if isSpace c then .ok (state.shift .beforeName)
    else if c = '\x7b' then do
      refuse mode state.scan c
      .ok { state with cursor := (Group.read state.cursor).cursor }
    else .ok { state.shift .name with name := state.name.push c }
  | .name =>
    if c = '=' then .ok (state.shift .beforeValue)
    else if c = '>' ∨ c = '/' then .ok (state.commit .flag)
    else if isSpace c then .ok (state.shift .afterName)
    else .ok { state.shift .name with name := state.name.push c }
  | .afterName =>
    if c = '=' then .ok (state.shift .beforeValue)
    else if isSpace c then .ok (state.shift .afterName)
    else .ok (state.commit .flag)
  | .beforeValue =>
    if isSpace c then .ok (state.shift .beforeValue)
    else if c = '"' ∨ c = '\'' ∨ c = '\x60' then .ok (state.shift (.quoted c))
    else if c = '\x7b' then
      let group := Group.read state.cursor
      if group.closed = false ∧ mode = .strict then .error (.unbalancedBraces group.start)
      else .ok { state.commit (.expression group.trimmed) with cursor := group.cursor }
    else if c = '/' ∧ slashCloses (state.cursor.peekAt? 1) then do
      refuse mode state.scan c
      .ok ((state.commit (.string "")).shift .slash)
    else if c = '>' then do
      refuse mode state.scan c
      .ok (state.commit (.string ""))
    else .ok { state.shift .unquoted with value := state.value.push c }
  | .quoted quote =>
    if c = quote then .ok ((state.commit (.string state.value)).shift .beforeName)
    else .ok { state.shift (.quoted quote) with value := state.value.push c }
  | .unquoted =>
    if isSpace c ∨ c = '>' then .ok (state.commit (.string state.value))
    else if c = '/' ∧ slashCloses (state.cursor.peekAt? 1) then
      .ok ((state.commit (.string state.value)).shift .slash)
    else .ok { state.shift .unquoted with value := state.value.push c }
  | .slash =>
    if c = '>' then .ok { state.shift .done with closed := true }
    else if isSpace c then .ok (state.shift .slash)
    else do
      refuse mode state.scan c
      .ok { state with stage := .beforeName }
  | .done => .ok state

/-- What the end of the text does: an attribute whose name or value was being read is committed. -/
def cutOff (state : Buffered) : Buffered :=
  match state.stage with
  | .name | .afterName => state.commit .flag
  | .quoted _ | .unquoted => state.commit (.string state.value)
  | .tagName | .beforeName | .beforeValue | .slash | .done => state

/-- One pass of the loop over transitions. -/
def pass (mode : Mode) (start : Position) (state : Buffered) :
    Buffered ⊕ Except Error (Header × Cursor) :=
  if state.stage = .done then .inr (.ok (finish state.scan state.attributes true, state.cursor))
  else
    match state.cursor.rest with
    | [] =>
      match mode with
      | .strict => .inr (.error (.unterminatedTag state.tag start))
      | .lenient => .inr (.ok (finish state.scan state.cutOff.attributes false, state.cursor))
    | c :: _ =>
      match step mode state c with
      | .error fault => .inr (.error fault)
      | .ok next => .inl next

end Buffered

/-! ## The buffers -/

/-- Whether the name of an attribute is pending. -/
def Stage.hasName : Stage → Bool
  | .name | .afterName | .beforeValue | .quoted _ | .unquoted => true
  | .tagName | .beforeName | .slash | .done => false

/-- Whether a value may be pending. -/
def Stage.hasValue : Stage → Bool
  | .quoted _ | .unquoted => true
  | .tagName | .beforeName | .name | .afterName | .beforeValue | .slash | .done => false

/-- The buffers hold what is pending, and nothing else. -/
structure Buffered.Fits (state : Buffered) : Prop where
  name : state.name ≠ "" ↔ state.stage.hasName = true
  value : state.value ≠ "" → state.stage.hasValue = true
  unquoted : state.stage = .unquoted → state.value ≠ ""

/-! ## The text of a header -/

/-- A name as it is collected.  An equals sign can only begin it. -/
structure Collected (name : String) : Prop where
  nonempty : name ≠ ""
  noBrace : name.toList.head? ≠ some '\x7b'
  plain : ∀ c ∈ name.toList, isSpace c = false ∧ c ≠ '>' ∧ c ≠ '/'
  noEquals : '=' ∉ name.toList.tail

/-- What is read behind the name of an attribute.  A quote or a brace is not closed if the text
ends before that. -/
inductive Spelled : AttrValue → List Char → Prop
  | flag : Spelled .flag []
  | quoted {value : String} {before after stop : List Char} {quote : Char} (left : Blank before)
      (right : Blank after) (isQuote : IsQuote quote) (avoided : quote ∉ value.toList)
      (ends : stop = [quote] ∨ stop = []) :
      Spelled (.string value) (before ++ '=' :: (after ++ quote :: (value.toList ++ stop)))
  | bare {value : String} {before after : List Char} (left : Blank before) (right : Blank after)
      (plain : ∀ c ∈ value.toList, isSpace c = false ∧ c ≠ '>') :
      Spelled (.string value) (before ++ '=' :: (after ++ value.toList))
  | braces {before after code stop : List Char} (left : Blank before) (right : Blank after)
      (ends : stop = ['\x7d'] ∨ stop = []) :
      Spelled (.expression (String.ofList (Text.trim code)))
        (before ++ '=' :: (after ++ '\x7b' :: (code ++ stop)))

/-- What stands between attributes, a piece of it. -/
inductive Gap : List Char → Prop
  | space {c : Char} (space : isSpace c = true) : Gap [c]
  | slash : Gap ['/']
  | braces (code : List Char) {stop : List Char} (ends : stop = ['\x7d'] ∨ stop = []) :
      Gap ('\x7b' :: (code ++ stop))

/-- The text behind the name of a tag, cut into attributes and what stands between them. -/
inductive CutUp : List (String × AttrValue) → List Char → Prop
  | nil : CutUp [] []
  | gap {entries : List (String × AttrValue)} {text piece : List Char} (before : CutUp entries text)
      (between : Gap piece) : CutUp entries (text ++ piece)
  | entry {entries : List (String × AttrValue)} {text piece : List Char} {name : String}
      {value : AttrValue} (before : CutUp entries text) (collected : Collected name)
      (spelled : Spelled value piece) :
      CutUp (entries ++ [(name, value)]) (text ++ (name.toList ++ piece))

/-- The text of what a stage has in its buffers: a name and a value.  Where there is none, the
buffer is empty. -/
inductive Pending : Stage → String → String → List Char → Prop
  | tagName : Pending .tagName "" "" []
  | beforeName : Pending .beforeName "" "" []
  | name {name : String} (collected : Collected name) : Pending .name name "" name.toList
  | afterName {name : String} {space : List Char} (collected : Collected name)
      (blank : Blank space) : Pending .afterName name "" (name.toList ++ space)
  | beforeValue {name : String} {before after : List Char} (collected : Collected name)
      (left : Blank before) (right : Blank after) :
      Pending .beforeValue name "" (name.toList ++ (before ++ '=' :: after))
  | quoted {name value : String} {before after : List Char} {quote : Char}
      (collected : Collected name) (left : Blank before) (right : Blank after)
      (isQuote : IsQuote quote) (avoided : quote ∉ value.toList) :
      Pending (.quoted quote) name value
        (name.toList ++ (before ++ '=' :: (after ++ quote :: value.toList)))
  | unquoted {name value : String} {before after : List Char} (collected : Collected name)
      (left : Blank before) (right : Blank after) (nonempty : value ≠ "")
      (plain : ∀ c ∈ value.toList, isSpace c = false ∧ c ≠ '>') :
      Pending .unquoted name value (name.toList ++ (before ++ '=' :: (after ++ value.toList)))
  | slash : Pending .slash "" "" []
  | done : Pending .done "" "" ['>']

/-- Where no name is pending the buffers are empty. -/
theorem Pending.idle {stage : Stage} {name value : String} {text : List Char}
    (here : Pending stage name value text) (idle : stage.hasName = false)
    (unfinished : stage ≠ .done) : name = "" ∧ value = "" ∧ text = [] := by
  cases here with
  | tagName | beforeName | slash => exact ⟨rfl, rfl, rfl⟩
  | name | afterName | beforeValue | quoted | unquoted | done => contradiction

/-- The text read so far is the name of the tag, the attributes that were committed and what is
pending, each in a place of its own. -/
structure Buffered.Traced (origin : Cursor) (state : Buffered) : Prop where
  reached : origin.Reaches state.cursor
  attributes : state.attributes = Attributes.ofList state.commits
  cut : ∃ body pending, origin.between state.cursor = state.tag.toList ++ (body ++ pending) ∧
    CutUp state.commits body ∧ Pending state.stage state.name state.value pending ∧
    (state.stage = .tagName → body = [])

namespace Collected

/-- A name that was just begun. -/
theorem singleton {c : Char} (plain : isSpace c = false ∧ c ≠ '>' ∧ c ≠ '/') (brace : c ≠ '\x7b') :
    Collected ("".push c) where
  nonempty := String.push_ne_empty
  noBrace := by simpa using brace
  plain := by simpa using plain
  noEquals := by simp

/-- A name goes on. -/
theorem push {name : String} (collected : Collected name) {c : Char}
    (plain : isSpace c = false ∧ c ≠ '>' ∧ c ≠ '/') (equals : c ≠ '=') :
    Collected (name.push c) := by
  obtain ⟨nonempty, noBrace, before, noEquals⟩ := collected
  obtain ⟨d, rest, begins⟩ := List.exists_cons_of_ne_nil (mt String.toList_eq_nil_iff.1 nonempty)
  simp only [begins, List.head?_cons, List.tail_cons] at noBrace noEquals
  constructor
  · exact String.push_ne_empty
  · simpa [begins] using noBrace
  · rw [String.toList_push]
    exact List.forall_mem_append.2 ⟨before, List.forall_mem_singleton.2 plain⟩
  · simpa [begins, not_or] using ⟨noEquals, Ne.symm equals⟩

end Collected

namespace CutUp

variable {entries : List (String × AttrValue)} {text : List Char}

/-- White space goes between attributes. -/
theorem blank (before : CutUp entries text) {space : List Char} (blank : Blank space) :
    CutUp entries (text ++ space) := by
  induction space generalizing text with
  | nil => simpa using before
  | cons c space ih =>
    obtain ⟨first, later⟩ := List.forall_mem_cons.1 blank
    simpa using ih (before.gap (.space first)) later

/-- Every attribute was committed with a name. -/
theorem collected (cut : CutUp entries text) : ∀ entry ∈ entries, Collected entry.1 := by
  induction cut with
  | nil => simp
  | gap _ _ ih => exact ih
  | entry _ collected _ ih =>
    exact List.forall_mem_append.2 ⟨ih, List.forall_mem_singleton.2 collected⟩

end CutUp

namespace Buffered

variable {mode : Mode} {start : Position} {origin cur : Cursor} {state next : Buffered} {c : Char}
  {rest : List Char}

theorem traced_start (cur : Cursor) : Traced cur (.start cur) where
  reached := .refl cur
  attributes := rfl
  cut := ⟨[], [], by simp [Buffered.start, Cursor.between_self], .nil, .tagName, fun _ => rfl⟩

/-- Between attributes there is nothing pending. -/
theorem traced_between {body : List Char} (reached : origin.Reaches state.cursor)
    (attributes : state.attributes = Attributes.ofList state.commits)
    (text : origin.between state.cursor = state.tag.toList ++ body) (cut : CutUp state.commits body)
    (stage : state.stage = .beforeName ∨ state.stage = .slash)
    (empty : state.name = "" ∧ state.value = "") : state.Traced origin := by
  refine ⟨reached, attributes, body, [], by simpa using text, cut, ?_, ?_⟩
  · rw [empty.1, empty.2]
    obtain here | here := stage
    · exact here ▸ .beforeName
    · exact here ▸ .slash
  · obtain here | here := stage
    · simp [here]
    · simp [here]

section

variable (traced : state.Traced origin) (begins : state.cursor.rest = c :: rest)
include traced begins

theorem between_next :
    origin.between state.cursor.next = origin.between state.cursor ++ [c] := by
  rw [← traced.reached.between_append state.cursor.reaches_next, Cursor.between_next begins]

theorem between_group (opens : c = '\x7b') :
    ∃ stop, (stop = ['\x7d'] ∨ stop = []) ∧
      origin.between (Group.read state.cursor).cursor = origin.between state.cursor ++
        '\x7b' :: ((Group.read state.cursor).code ++ stop) := by
  subst opens
  rw [← traced.reached.between_append (Group.reaches_cursor _), Group.between_read begins]
  refine ⟨_, ?_, rfl⟩
  split
  · exact .inl rfl
  · exact .inr rfl

/-- White space or a slash that follows no name stands between attributes. -/
theorem traced_gap (idle : state.stage.hasName = false) (unfinished : state.stage ≠ .done)
    (gap : Gap [c]) {stage : Stage} (onward : stage = .beforeName ∨ stage = .slash) :
    (state.shift stage).Traced origin := by
  have read := between_next traced begins
  obtain ⟨reached, attributes, body, pending, text, cut, here, -⟩ := traced
  obtain ⟨name, value, rfl⟩ := here.idle idle unfinished
  refine traced_between (reached.trans state.cursor.reaches_next) attributes ?_ (cut.gap gap) onward
    ⟨name, value⟩
  simp [shift, read, text]

/-- The `>` that follows no name ends the header. -/
theorem traced_end (idle : state.stage.hasName = false) (unfinished : state.stage ≠ .done)
    (gt : c = '>') (closed : Bool) : { state.shift .done with closed := closed }.Traced origin := by
  have read := between_next traced begins
  obtain ⟨reached, attributes, body, pending, text, cut, here, -⟩ := traced
  obtain ⟨name, value, rfl⟩ := here.idle idle unfinished
  refine ⟨reached.trans state.cursor.reaches_next, attributes, body, ['>'], ?_, cut, ?_,
    by simp [shift]⟩
  · simp [shift, read, text, gt]
  · simp only [shift, name, value]
    exact .done

end

theorem attributes_commit (attributes : state.attributes = Attributes.ofList state.commits)
    (collected : Collected state.name) (value : AttrValue) :
    (state.commit value).attributes = Attributes.ofList (state.commit value).commits := by
  simp [commit, collected.nonempty, attributes, Attributes.ofList_concat]

/-- An attribute that was pending is committed. -/
theorem traced_commit {body piece : List Char} {value : AttrValue}
    (reached : origin.Reaches state.cursor)
    (attributes : state.attributes = Attributes.ofList state.commits)
    (text : origin.between state.cursor =
      state.tag.toList ++ (body ++ (state.name.toList ++ piece)))
    (cut : CutUp state.commits body) (collected : Collected state.name)
    (spelled : Spelled value piece) : (state.commit value).Traced origin :=
  traced_between reached (attributes_commit attributes collected value) text
    (cut.entry collected spelled) (.inl rfl) ⟨rfl, rfl⟩

/-- A flag is committed, and the white space behind its name stands between attributes. -/
theorem traced_flag {body space : List Char} (reached : origin.Reaches state.cursor)
    (attributes : state.attributes = Attributes.ofList state.commits)
    (text : origin.between state.cursor =
      state.tag.toList ++ (body ++ (state.name.toList ++ space)))
    (cut : CutUp state.commits body) (collected : Collected state.name) (blank : Blank space) :
    (state.commit .flag).Traced origin :=
  traced_between reached (attributes_commit attributes collected .flag) (by simp [commit, text])
    ((cut.entry collected .flag).blank blank) (.inl rfl) ⟨rfl, rfl⟩

/-- One transition.  The cases are those of what is pending. -/
theorem traced_step (traced : state.Traced origin) (begins : state.cursor.rest = c :: rest)
    (h : step mode state c = .ok next) : next.Traced origin := by
  have onward := traced.reached.trans state.cursor.reaches_next
  have read := between_next traced begins
  have past := traced.reached.trans (Group.reaches_cursor state.cursor)
  have braces := between_group traced begins
  have gap := traced_gap traced begins
  have ended := traced_end traced begins
  obtain ⟨reached, attributes, body, pending, text, cut, here, bare⟩ := traced
  obtain ⟨stage, tag, name, value, given, commits, closed, cursor⟩ := state
  dsimp only at *
  rw [text] at read braces
  cases here with
  | tagName =>
    obtain rfl := bare rfl
    simp only [step] at h
    repeat' split at h
    all_goals cases h
    · next gt => exact ended rfl (by simp) gt closed
    · next slash => exact gap rfl (by simp) (slash ▸ .slash) (.inr rfl)
    · next space => exact gap rfl (by simp) (.space space) (.inl rfl)
    · exact ⟨onward, attributes, [], [], by simp [shift, read], cut, .tagName, fun _ => rfl⟩
  | beforeName =>
    simp only [step] at h
    repeat' split at h
    · next gt => cases h; exact ended rfl (by simp) gt closed
    · next slash => cases h; exact gap rfl (by simp) (slash ▸ .slash) (.inr rfl)
    · next space => cases h; exact gap rfl (by simp) (.space space) (.inl rfl)
    · next opens =>
      cases ok_of_refuse h
      obtain ⟨stop, ends, group⟩ := braces opens
      exact traced_between past attributes (by simp [group])
        (cut.gap (.braces (Group.read cursor).code ends)) (.inl rfl) ⟨rfl, rfl⟩
    · next gt slash space opens =>
      cases h
      have collected := Collected.singleton ⟨Bool.eq_false_iff.2 space, gt, slash⟩ opens
      exact ⟨onward, attributes, body, _, by simp [shift, read], cut, .name collected,
        by simp [shift]⟩
  | name collected =>
    simp only [step] at h
    repeat' split at h
    all_goals cases h
    · next equals =>
      exact ⟨onward, attributes, body, _, by simp [shift, read, equals], cut,
        .beforeValue collected Text.blank_nil Text.blank_nil, by simp [shift]⟩
    · exact traced_commit reached attributes (by simpa using text) cut collected .flag
    · next space =>
      exact ⟨onward, attributes, body, _, by simp [shift, read], cut,
        .afterName collected (List.forall_mem_singleton.2 space), by simp [shift]⟩
    · next equals ends space =>
      have collected := collected.push ⟨Bool.eq_false_iff.2 space, not_or.1 ends⟩ equals
      exact ⟨onward, attributes, body, _, by simp [shift, read], cut, .name collected,
        by simp [shift]⟩
  | afterName collected blank =>
    simp only [step] at h
    repeat' split at h
    all_goals cases h
    · next equals =>
      exact ⟨onward, attributes, body, _, by simp [shift, read, equals], cut,
        .beforeValue collected blank Text.blank_nil, by simp [shift]⟩
    · next space =>
      exact ⟨onward, attributes, body, _, by simp [shift, read], cut,
        .afterName collected (blank.concat space), by simp [shift]⟩
    · exact traced_flag reached attributes text cut collected blank
  | beforeValue collected left right =>
    have committed : (commit ⟨.beforeValue, tag, name, "", given, commits, closed, cursor⟩
        (.string "")).Traced origin :=
      traced_commit reached attributes (by simpa using text) cut collected
        (.bare left right (by simp))
    simp only [step] at h
    repeat' split at h
    · next space =>
      cases h
      exact ⟨onward, attributes, body, _, by simp [shift, read], cut,
        .beforeValue collected left (right.concat space), by simp [shift]⟩
    · next isQuote =>
      cases h
      exact ⟨onward, attributes, body, _, by simp [shift, read], cut,
        .quoted collected left right isQuote List.not_mem_nil, by simp [shift]⟩
    · contradiction
    · next opens _ =>
      cases h
      obtain ⟨stop, ends, group⟩ := braces opens
      exact traced_between past (attributes_commit attributes collected _) (by simp [commit, group])
        (cut.entry collected (.braces left right ends)) (.inl rfl) ⟨rfl, rfl⟩
    · next slash =>
      cases ok_of_refuse h
      exact traced_gap committed begins rfl (by simp [commit]) (slash.1 ▸ .slash) (.inr rfl)
    · cases ok_of_refuse h
      exact committed
    · next space quote opens slash gt =>
      cases h
      refine ⟨onward, attributes, body, _, by simp [shift, read], cut,
        .unquoted collected left right ?_ ?_, by simp [shift]⟩
      · dsimp only
        exact String.push_ne_empty
      · simpa using ⟨Bool.eq_false_iff.2 space, gt⟩
  | quoted collected left right isQuote avoided =>
    simp only [step] at h
    split at h
    all_goals cases h
    · next same =>
      subst same
      refine traced_between onward (attributes_commit attributes collected _) ?_
        (cut.entry collected (.quoted left right isQuote avoided (.inl rfl))) (.inl rfl) ⟨rfl, rfl⟩
      simp [shift, commit, read]
    · next other =>
      exact ⟨onward, attributes, body, _, by simp [shift, read], cut,
        .quoted collected left right isQuote (by simpa using ⟨avoided, Ne.symm other⟩),
        by simp [shift]⟩
  | unquoted collected left right nonempty plain =>
    have committed : (commit ⟨.unquoted, tag, name, value, given, commits, closed, cursor⟩
        (.string value)).Traced origin :=
      traced_commit reached attributes (by simpa using text) cut collected (.bare left right plain)
    simp only [step] at h
    repeat' split at h
    all_goals cases h
    · exact committed
    · next slash =>
      exact traced_gap committed begins rfl (by simp [commit]) (slash.1 ▸ .slash) (.inr rfl)
    · next ends slash =>
      rw [not_or] at ends
      refine ⟨onward, attributes, body, _, by simp [shift, read], cut,
        .unquoted collected left right ?_ ?_, by simp [shift]⟩
      · exact String.push_ne_empty
      · rw [String.toList_push]
        exact List.forall_mem_append.2
          ⟨plain, List.forall_mem_singleton.2 ⟨Bool.eq_false_iff.2 ends.1, ends.2⟩⟩
  | slash =>
    simp only [step] at h
    repeat' split at h
    · next gt => cases h; exact ended rfl (by simp) gt true
    · next space => cases h; exact gap rfl (by simp) (.space space) (.inr rfl)
    · cases ok_of_refuse h
      exact traced_between reached attributes (by simp [text]) cut (.inl rfl) ⟨rfl, rfl⟩
  | done =>
    simp only [step] at h
    cases h
    exact ⟨reached, attributes, body, _, text, cut, .done, by simp⟩

/-- The end of the text. -/
theorem traced_cutOff (traced : state.Traced origin) : state.cutOff.Traced origin := by
  have whole := traced
  obtain ⟨reached, attributes, body, pending, text, cut, here, -⟩ := traced
  obtain ⟨stage, tag, name, value, given, commits, closed, cursor⟩ := state
  dsimp only at *
  cases here with
  | tagName | beforeName | beforeValue | slash | done => exact whole
  | name collected =>
    exact traced_commit reached attributes (by simpa using text) cut collected .flag
  | afterName collected blank => exact traced_flag reached attributes text cut collected blank
  | quoted collected left right isQuote avoided =>
    exact traced_commit reached attributes (by simpa using text) cut collected
      (.quoted left right isQuote avoided (.inr rfl))
  | unquoted collected left right nonempty plain =>
    exact traced_commit reached attributes (by simpa using text) cut collected
      (.bare left right plain)

/-! ## The machine without buffers -/

/-- A transition is one of the machine without buffers. -/
theorem scan_step (traced : state.Traced origin) (mode : Mode) (c : Char) :
    (step mode state c).map scan = Header.step mode state.scan c := by
  obtain ⟨-, -, body, pending, -, -, here, -⟩ := traced
  obtain ⟨stage, tag, name, value, given, commits, closed, cursor⟩ := state
  dsimp only at *
  cases here with
  | tagName | done =>
    simp only [step, Header.step, scan, phase, apply_ite (Except.map scan)]
    rfl
  | beforeName | slash =>
    simp only [step, Header.step, scan, phase, apply_ite (Except.map scan)]
    cases mode <;> rfl
  | name collected | afterName collected | beforeValue collected | quoted collected
  | unquoted collected =>
    have named := collected.nonempty
    simp only [step, Header.step, apply_ite (Except.map scan), commit, if_neg named]
    cases mode <;> rfl

theorem phase_eq_done : state.scan.phase = .done ↔ state.stage = .done := by
  obtain ⟨stage⟩ := state
  cases stage <;> simp [scan, phase]

theorem attributes_cutOff (traced : state.Traced origin) :
    state.cutOff.attributes = Header.cutOff state.scan := by
  obtain ⟨-, -, body, pending, -, -, here, -⟩ := traced
  obtain ⟨stage, tag, name, value, given, commits, closed, cursor⟩ := state
  dsimp only at *
  cases here with
  | tagName | beforeName | beforeValue | slash | done => rfl
  | name collected | afterName collected | quoted collected | unquoted collected =>
    simp [cutOff, commit, Header.cutOff, scan, phase, collected.nonempty]

theorem scan_pass (traced : state.Traced origin) (mode : Mode) (start : Position) :
    Header.pass mode start state.scan = (pass mode start state).map scan id := by
  unfold Header.pass pass
  simp only [phase_eq_done]
  split
  · rfl
  · change (match state.cursor.rest with | [] => _ | c :: _ => _) = _
    cases state.cursor.rest with
    | nil =>
      cases mode with
      | strict => rfl
      | lenient =>
        dsimp only
        rw [attributes_cutOff traced]
        rfl
    | cons c rest =>
      dsimp only
      rw [← scan_step traced]
      cases step mode state c with
      | error fault => rfl
      | ok next => rfl

/-- A pass goes on after a transition. -/
theorem step_of_pass (h : pass mode start state = .inl next) :
    ∃ c rest, state.cursor.rest = c :: rest ∧ step mode state c = .ok next := by
  unfold pass at h
  split at h
  · contradiction
  · split at h
    · split at h
      · contradiction
      · contradiction
    · next c rest more =>
      split at h
      · contradiction
      · next taken =>
        cases h
        exact ⟨c, rest, more, taken⟩

theorem traced_pass (traced : state.Traced origin) (h : pass mode start state = .inl next) :
    next.Traced origin := by
  obtain ⟨c, rest, begins, taken⟩ := step_of_pass h
  exact traced_step traced begins taken

/-- What is kept by all passes of a header. -/
theorem traced_of_passes (passes : Loop.Passes (pass mode start) (.start cur) state) :
    state.Traced cur := by
  induction passes with
  | refl => exact traced_start cur
  | tail _ made ih => exact traced_pass ih made

theorem loop_eq_read (mode : Mode) (cur : Cursor) {passes : Nat}
    (enough : 2 * cur.rest.length + 2 ≤ passes) :
    Loop.run (pass mode cur.position) passes (.start cur) = some (read mode cur) := by
  rw [← Header.loop_eq_read mode cur enough]
  exact (Loop.run_view (Traced cur) (fun _ traced => scan_pass traced mode cur.position)
    traced_pass passes (traced_start cur)).symm

/-- The machine without buffers comes through the same states. -/
theorem passes_scan (mode : Mode) (cur : Cursor) (last : Scan) :
    Loop.Passes (Header.pass mode cur.position) (.start cur) last ↔
      ∃ state, Loop.Passes (pass mode cur.position) (.start cur) state ∧ state.scan = last :=
  Loop.passes_view (Traced cur) (fun _ traced => scan_pass traced mode cur.position) traced_pass
    (traced_start cur) last

theorem Traced.fits (traced : state.Traced origin) : state.Fits := by
  obtain ⟨-, -, body, pending, -, -, here, -⟩ := traced
  obtain ⟨stage, tag, name, value, given, commits, closed, cursor⟩ := state
  dsimp only at *
  cases here with
  | tagName | beforeName | slash | done => exact ⟨by simp [Stage.hasName], by simp, by simp⟩
  | name collected | afterName collected | beforeValue collected =>
    exact ⟨by simp [Stage.hasName, collected.nonempty], by simp, by simp⟩
  | quoted collected =>
    exact ⟨by simp [Stage.hasName, collected.nonempty], by simp [Stage.hasValue], by simp⟩
  | unquoted collected left right nonempty =>
    exact ⟨by simp [Stage.hasName, collected.nonempty], by simp [Stage.hasValue],
      fun _ => nonempty⟩

theorem Traced.collected (traced : state.Traced origin) :
    ∀ entry ∈ state.commits, Collected entry.1 := by
  obtain ⟨body, pending, -, cut, -⟩ := traced.cut
  exact cut.collected

end Buffered

end Header

/-- **The buffers always hold what the stage says.**  The machine with buffers gives the header
that is read without them, and comes through the same states.  In each of them, and at the end of
the text, the buffer of names is empty exactly where no name is pending, and that of values
wherever no value is; every commit had a name, so none was passed over; and the text read so far
is cut into the attributes committed and what is pending, so that no character of a name or value
is in two of them. -/
theorem buffers_fit (mode : Mode) (cur : Cursor) :
    (∀ passes, 2 * cur.rest.length + 2 ≤ passes →
      Loop.run (Header.Buffered.pass mode cur.position) passes (.start cur) =
        some (Header.read mode cur)) ∧
    (∀ scan, Loop.Passes (Header.pass mode cur.position) (.start cur) scan ↔
      ∃ state, Loop.Passes (Header.Buffered.pass mode cur.position) (.start cur) state ∧
        state.scan = scan) ∧
    ∀ state, Loop.Passes (Header.Buffered.pass mode cur.position) (.start cur) state →
      state.Fits ∧ (∀ entry ∈ state.cutOff.commits, Header.Collected entry.1) ∧
        state.Traced cur ∧ state.cutOff.Traced cur := by
  refine ⟨fun passes => Header.Buffered.loop_eq_read mode cur,
    Header.Buffered.passes_scan mode cur, fun state passes => ?_⟩
  have traced := Header.Buffered.traced_of_passes passes
  have ended := Header.Buffered.traced_cutOff traced
  exact ⟨traced.fits, ended.collected, traced, ended⟩

/-- A header that is cut off in a value, behind a name that begins with an equals sign, a quoted
value that looks like the end of a tag, and a flag. -/
theorem buffers_fit_unquoted :
    ∃ state, Loop.Passes (Header.Buffered.pass .lenient .start)
        (.start (.ofList "p =a='/>' b c=d".toList)) state ∧
      (state.stage, state.name, state.value) = (.unquoted, "c", "d") ∧
      state.cutOff.commits.map Prod.fst = ["=a", "b", "c"] ∧
      state.Fits ∧ (∀ entry ∈ state.cutOff.commits, Header.Collected entry.1) ∧
      state.Traced (.ofList "p =a='/>' b c=d".toList) ∧
      state.cutOff.Traced (.ofList "p =a='/>' b c=d".toList) := by
  have passed : (Loop.after (Header.Buffered.pass .lenient .start) 16
      (.start (.ofList "p =a='/>' b c=d".toList))).map (fun state =>
        ((state.stage, state.name, state.value), state.cutOff.commits.map Prod.fst)) =
      some ((.unquoted, "c", "d"), ["=a", "b", "c"]) := by
    decide +kernel
  obtain ⟨state, after, same⟩ := Option.map_eq_some_iff.1 passed
  have passes := Loop.passes_of_after after
  obtain ⟨-, -, fit⟩ := buffers_fit .lenient (.ofList "p =a='/>' b c=d".toList)
  exact ⟨state, passes, (Prod.mk.inj same).1, (Prod.mk.inj same).2, fit state passes⟩

end InlineMarkup
